/-
# A pass loses no local content

Every content that is on disk under a name of the user's is still on disk after a deep pass, where
it was or at a conflict copy, unless the ledger had recorded just that content there and the store
had since replaced or deleted it (`Folder.reconcile_keeps_content`). Whether the pass is refused,
fails half way or holds its deletions makes no difference.

There is one way to lose content: the conflict copy goes to a name computed from the path and the
content's hash, and whatever is at that name is overwritten (`Folder.copy_overwritten`). So the
theorem asks that each copy, when it is made, goes where nothing is, or that very content
(`Folder.keepRules`).

The argument follows a content through the run. Store and ledger have at a path still to come what
they had at the start, or agree (`Folder.Waiting`); a content is where it was, or the ledger had it,
or it is at a copy whose path agrees and whose original has been dealt with, so that nothing will
touch it again (`Folder.Saved`).
-/
import Itsanas.Agreement

namespace Itsanas
namespace Folder

open Files Effects

variable {K : Crypto} {r : Rules} {m : Machine} {v₀ v v' : View} {w : World K}

/-! ### Where copies go -/

/-- Names whose last is not one that the folder ignores. -/
def Ordinary (names : List Str) :
    Prop := ∃ front last, names = front ++ [last] ∧ isIgnored last = false

/-- What a pass that is to lose nothing is held to: a conflict copy under a name that is not ignored
goes where nothing is, or the content it is a copy of. -/
def keepRules : Rules where
  stage _ := true
  aside t source target := target.getLast?.any isIgnored || Files.content t target = none ||
    Files.content t target = Files.content t source
  replace _ := true

theorem isIgnored_marker : isIgnored marker = true := by simp [isIgnored]

theorem isIgnored_partName (pid n : ℕ) : isIgnored (partName pid n) = true := by
  have hsuffix : ".part".toList.isSuffixOf (partName pid n) = true :=
    List.isSuffixOf_iff_suffix.mpr (List.suffix_append _ _)
  have hany : ignoredSuffixes.any (·.isSuffixOf (partName pid n)) = true :=
    List.any_eq_true.mpr ⟨".part".toList, by decide, hsuffix⟩
  unfold isIgnored
  rw [hany, Bool.or_true]

variable {names : List Str}

theorem Ordinary.free (h : Ordinary names) :
    m.root ++ names ≠ m.markerAt ∧ ¬m.Stages r (m.root ++ names) := by
  obtain ⟨front, last, rfl, hlast⟩ := h
  refine ⟨fun heq => ?_, ?_⟩
  · have hnames : front ++ [last] = [] ++ [marker] := List.append_cancel_left heq
    rw [List.cons.inj (List.append_inj' hnames rfl).2 |>.1, isIgnored_marker] at hlast
    cases hlast
  · rintro ⟨-, n, heq⟩
    rw [Machine.part, Machine.staging, List.append_assoc] at heq
    have hnames : front ++ [last] = [stagingDir] ++ [partName m.pid n] := List.append_cancel_left heq
    rw [List.cons.inj (List.append_inj' hnames rfl).2 |>.1, isIgnored_partName] at hlast
    cases hlast

/-- A copy that goes over a content under a name that is not ignored is a copy of that content. -/
theorem Room.eq {path : Path} {c c' : Bytes} (h : Room keepRules m v path c')
    (hordinary : Ordinary (components path)) (hdisk : v.disk (m.place path) = some c) : c' = c := by
  obtain ⟨t, source, haside, hsource, htarget⟩ := h
  obtain ⟨front, last, hnames, hlast⟩ := hordinary
  have hignored : (m.place path).getLast?.any isIgnored = false := by
    rw [Machine.place, hnames, ← List.append_assoc, List.getLast?_concat]
    exact hlast
  rw [hdisk] at htarget
  simp only [keepRules, hignored, htarget, hsource, reduceCtorEq, decide_false, Bool.false_or,
    decide_eq_true_eq] at haside
  exact (Option.some.inj haside).symm

/-! ### Following a content -/

/-- Store and ledger have at a path what they had at the start, or agree. -/
def Waiting (v₀ v : View) (path : Path) : Prop :=
  v.store path = v₀.store path ∧ v.ledger path = v₀.ledger path ∨ v.store path = v.ledger path

/-- Where a content has got to: it is where it was, or the ledger knew it there and the store had
something else, or it is at a copy that nothing will touch again. -/
inductive Saved (K : Crypto) (m : Machine) (v₀ : View) (todo : List Path) (v : View)
    (names : List Str) (c : Bytes) :
    Prop
  | stays : v.disk (m.root ++ names) = some c → Saved K m v₀ todo v names c
  | outdated (path : Path) : validate path = .ok () → m.place path = m.root ++ names →
      v₀.ledger path = some (K.contentHash c) → v₀.store path ≠ some (K.contentHash c) →
        Saved K m v₀ todo v names c
  | aside (path : Path) : validate path = .ok () → path ∉ todo →
      validate (sibling path (K.contentHash c)) = .ok () →
      v.disk (m.place (sibling path (K.contentHash c))) = some c →
      v.store (sibling path (K.contentHash c)) = some (K.contentHash c) →
      v.ledger (sibling path (K.contentHash c)) = some (K.contentHash c) → Saved K m v₀ todo v names c

/-- What a run keeps. -/
structure Keeping (K : Crypto) (m : Machine) (v₀ : View) (todo : List Path) (v : View) : Prop where
  waiting : ∀ path ∈ todo, Waiting v₀ v path
  saved : ∀ names c, Ordinary names → v₀.disk (m.root ++ names) = some c → Saved K m v₀ todo v names c

variable {c : Bytes}

theorem Saved.mono {todo todo' : List Path} (h : Saved K m v₀ todo v names c)
    (hsub : todo' ⊆ todo) : Saved K m v₀ todo' v names c := by
  cases h with
  | stays hdisk => exact .stays hdisk
  | outdated path hvalid hplace hledger hstore => exact .outdated path hvalid hplace hledger hstore
  | aside path hvalid hpath hsvalid hdisk hstore hledger =>
    exact .aside path hvalid (fun hin => hpath (hsub hin)) hsvalid hdisk hstore hledger

theorem Keeping.mono {todo todo' : List Path} (h : Keeping K m v₀ todo v) (hsub : todo' ⊆ todo) :
    Keeping K m v₀ todo' v :=
  ⟨fun path hp => h.waiting path (hsub hp), fun names c hord hdisk =>
    (h.saved names c hord hdisk).mono hsub⟩

section
variable {path : Path} {rest : List Path} {found : Option Id} {hold ok : Bool}

theorem decide_same (hash : Option Id) : decide hash hash hash = .nothing := by simp [decide]

/-- A content at the path of a step stays, or the ledger knew it and the store did not have it, or
it is aside. -/
theorem Step.saved (h : Step K r m hold path found v ok v') (hlook : Look K r m true path v found)
    (hvalid : validate path = .ok ()) (hfree : ¬m.Stages r (m.place path))
    (hwaiting : Waiting v₀ v path)
    (hrest : path ∉ rest) (hdisk : v.disk (m.place path) = some c) :
    Saved K m v₀ rest v' (components path) c := by
  have hfound : found = some (K.contentHash c) := by
    rw [hlook.deep hfree, hdisk]
    rfl
  have hspec := decide_spec found (v.store path) (v.ledger path)
  -- a file that is overwritten or deleted is one the ledger knew, and the store does not have
  have houtdated : v.ledger path = some (K.contentHash c) → v.store path ≠ v.ledger path →
      Saved K m v₀ rest v' (components path) c := by
    intro hledger hne
    rcases hwaiting with ⟨hstore₀, hledger₀⟩ | hagree
    · refine .outdated path hvalid rfl (hledger₀ ▸ hledger) ?_
      rw [← hstore₀, ← hledger]
      exact hne
    · exact absurd hagree hne
  have hsib : ∀ hash : Id, validate (sibling path hash) = .ok () →
      m.place path ≠ m.place (sibling path hash) :=
    fun hash hs heq => sibling_ne path hash (place_inj hvalid hs heq).symm
  cases h with
  | failed => exact .stays hdisk
  | nothing _ => exact .stays hdisk
  | held _ _ => exact .stays hdisk
  | recorded _ => exact .stays hdisk
  | imported _ _ _ => exact .stays hdisk
  | removed _ _ => exact .stays hdisk
  | exported bytes hdecide _ _ =>
    rw [hdecide] at hspec
    obtain ⟨-, hne, hor⟩ := hspec
    refine houtdated ?_ hne
    rcases hor with h | h
    · exact h.symm.trans hfound
    · rw [hfound] at h
      cases h
  | deleted hdecide _ =>
    rw [hdecide] at hspec
    obtain ⟨hnone, heq, hledger⟩ := hspec
    exact houtdated (heq.symm.trans hfound) (by rw [hnone]; exact Ne.symm hledger)
  | copied hash c' hconflict =>
    exact .stays ((View.disk_setDisk_of_ne hfree (hsib hash hconflict.valid) _ v).trans hdisk)
  | copiedIn hash c' hconflict =>
    exact .stays ((View.disk_setDisk_of_ne hfree (hsib hash hconflict.valid) _ v).trans hdisk)
  | keptBoth hash c' bytes hconflict _ =>
    have hs := hconflict.valid
    obtain rfl : c' = c := Option.some.inj ((hconflict.has.disk hfree).symm.trans hdisk)
    obtain rfl : hash = K.contentHash c' := Option.some.inj (hconflict.found.symm.trans hfound)
    have hne := sibling_ne path (K.contentHash c')
    have hsfree := (place_sibling (r := r) (m := m) hvalid hs).2
    refine .aside path hvalid hrest hs ?_ ?_ ?_
    · refine (View.disk_setDisk_of_ne hsfree (Ne.symm (hsib _ hs)) _ _).trans ?_
      exact View.disk_setDisk_self hsfree _ v
    · exact Function.update_self ..
    · exact (Function.update_of_ne hne ..).trans (Function.update_self ..)

/-- A step leaves what store and ledger have at another path, or they agree there. -/
theorem Step.waiting (h : Step K r m hold path found v ok v') {path' : Path} (hne : path' ≠ path)
    (hbefore : Waiting v₀ v path') : Waiting v₀ v' path' := by
  have hsame : ∀ {v v' : View} {q : Path}, Only r m q v v' → path' ≠ q → Waiting v₀ v path' →
      Waiting v₀ v' path' := by
    intro v v' q honly hneq hw
    rw [Waiting, honly.store path' hneq, honly.ledger path' hneq]
    exact hw
  rcases h.only with honly | ⟨hash, c, v₁, haside, honly⟩
  · exact hsame honly hne hbefore
  refine hsame honly hne ?_
  by_cases hsib : path' = sibling path hash
  · subst hsib
    rcases haside.view with ⟨rfl, -⟩ | rfl
    · exact hbefore
    · right
      show Function.update _ _ _ _ = Function.update _ _ _ _
      rw [Function.update_self, Function.update_self]
  · exact hsame haside.only hsib hbefore

/-- A content that was where it was is saved by a step. -/
theorem Step.saved_of_stays (h : Step K keepRules m hold path found v ok v')
    (hlook : Look K keepRules m true path v found) (hvalid : validate path = .ok ())
    (hwaiting : Waiting v₀ v path) (hrest : path ∉ rest) (hordinary : Ordinary names)
    (hdisk : v.disk (m.root ++ names) = some c) : Saved K m v₀ rest v' names c := by
  have hfree := (hordinary.free (r := keepRules) (m := m)).2
  by_cases hown : m.root ++ names = m.place path
  · obtain rfl : names = components path := List.append_cancel_left hown
    exact h.saved hlook hvalid hfree hwaiting hrest hdisk
  refine .stays ?_
  rcases h.only with honly | ⟨hash, c', v₁, haside, honly⟩
  · rw [honly.disk _ hfree hown, hdisk]
  · rw [honly.disk _ hfree hown]
    by_cases hcopied : m.root ++ names = m.place (sibling path hash)
    · obtain rfl : names = components (sibling path hash) := List.append_cancel_left hcopied
      rw [← haside.room.eq hordinary hdisk]
      rcases haside.view with ⟨rfl, -⟩ | rfl
      · exact View.disk_setDisk_self hfree _ v
      · exact View.disk_setDisk_self hfree _ v
    · rw [haside.only.disk _ hfree hcopied, hdisk]

/-- A step at a path that agrees changes nothing. -/
theorem Step.eq_of_nothing (h : Step K r m hold path found v ok v')
    (hnothing : decide found (v.store path) (v.ledger path) = .nothing) : v' = v := by
  have hconflict : ∀ {hash c}, ¬Conflict K r m path found v hash c := fun h => by
    cases hnothing.symm.trans h.decided
  cases h with
  | failed => rfl
  | nothing _ => rfl
  | held _ _ => rfl
  | copied _ _ h => exact (hconflict h).elim
  | copiedIn _ _ h => exact (hconflict h).elim
  | keptBoth _ _ _ h _ => exact (hconflict h).elim
  | _ => cases hnothing.symm.trans ‹_›

/-- A copy whose original has been dealt with is left alone by a step. -/
theorem Step.saved_of_aside (h : Step K r m hold path found v ok v')
    (hlook : Look K r m true path v found) (hvalid : validate path = .ok ()) {origin : Path}
    (horigin : validate origin = .ok ()) (hdone : origin ∉ path :: rest)
    (hs : validate (sibling origin (K.contentHash c)) = .ok ())
    (hdisk : v.disk (m.place (sibling origin (K.contentHash c))) = some c)
    (hstore : v.store (sibling origin (K.contentHash c)) = some (K.contentHash c))
    (hledger : v.ledger (sibling origin (K.contentHash c)) = some (K.contentHash c)) :
    Saved K m v₀ rest v' names c := by
  have hfree := (place_sibling (r := r) (m := m) horigin hs).2
  have hdone' : origin ∉ rest := fun hin => hdone (List.mem_cons_of_mem _ hin)
  by_cases hown : sibling origin (K.contentHash c) = path
  · -- all agree at the copy, so there is nothing to do
    subst hown
    have hnothing : decide found (v.store (sibling origin (K.contentHash c)))
        (v.ledger (sibling origin (K.contentHash c))) = .nothing := by
      rw [hlook.deep hfree, hdisk, hstore, hledger]
      exact decide_same _
    rw [h.eq_of_nothing hnothing]
    exact .aside origin horigin hdone' hs hdisk hstore hledger
  have hkept : ∀ {v v' : View} {q : Path}, Only r m q v v' → validate q = .ok () →
      sibling origin (K.contentHash c) ≠ q →
      v'.disk (m.place (sibling origin (K.contentHash c))) =
        v.disk (m.place (sibling origin (K.contentHash c))) ∧
      v'.store (sibling origin (K.contentHash c)) = v.store (sibling origin (K.contentHash c)) ∧
      v'.ledger (sibling origin (K.contentHash c)) = v.ledger (sibling origin (K.contentHash c)) :=
    fun honly hq hne => ⟨honly.disk _ hfree fun heq => hne (place_inj hs hq heq), honly.store _ hne,
      honly.ledger _ hne⟩
  rcases h.only with honly | ⟨hash, c', v₁, haside, honly⟩
  · obtain ⟨hd, hst, hl⟩ := hkept honly hvalid hown
    exact .aside origin horigin hdone' hs (hd.trans hdisk) (hst.trans hstore) (hl.trans hledger)
  · have hother : sibling origin (K.contentHash c) ≠ sibling path hash := fun heq =>
      hdone (sibling_inj heq ▸ List.mem_cons_self ..)
    obtain ⟨hd, hst, hl⟩ := hkept honly hvalid hown
    obtain ⟨hd', hst', hl'⟩ := hkept haside.only haside.valid hother
    exact .aside origin horigin hdone' hs (hd.trans (hd'.trans hdisk)) (hst.trans (hst'.trans hstore))
      (hl.trans (hl'.trans hledger))

/-- **A step loses no content.** -/
theorem Steps.keeping (h : Steps K keepRules m true hold path v ok v')
    (hkeeping : Keeping K m v₀ (path :: rest) v)
    (hrest : path ∉ rest) : Keeping K m v₀ rest v' := by
  rcases h with ⟨-, rfl⟩ | ⟨hvalid, found, hlook, hstep⟩
  · exact hkeeping.mono (List.subset_cons_self _ _)
  refine ⟨fun path' hp => ?_, fun names c hordinary hinitial => ?_⟩
  · exact hstep.waiting (fun heq => hrest (heq ▸ hp))
      (hkeeping.waiting path' (List.mem_cons_of_mem _ hp))
  · cases hkeeping.saved names c hordinary hinitial with
    | stays hdisk =>
      exact hstep.saved_of_stays hlook hvalid (hkeeping.waiting path (List.mem_cons_self ..)) hrest
        hordinary hdisk
    | outdated path' hvalid' hplace hledger hstore =>
        exact .outdated path' hvalid' hplace hledger hstore
    | aside origin horigin hdone hs hdisk hstore hledger =>
      exact hstep.saved_of_aside hlook hvalid horigin hdone hs hdisk hstore hledger

end

/-- **A run loses no content.** -/
theorem Run.keeping {paths : List Path} {hold ok : Bool}
    (h : Run K keepRules m true hold paths v ok v')
    (hnodup : paths.Nodup) (hkeeping : Keeping K m v₀ paths v) : Keeping K m v₀ [] v' := by
  induction h with
  | nil => exact hkeeping
  | @cons path paths v v₁ v₂ ok ok' hsteps hrun ih =>
    obtain ⟨hrest, hnodup⟩ := List.nodup_cons.mp hnodup
    exact ih hnodup (hsteps.keeping hkeeping hrest)

/-- At the start everything is where it is. -/
theorem Keeping.start (paths : List Path) (v : View) : Keeping K m v paths v :=
  ⟨fun _ _ => .inl ⟨rfl, rfl⟩, fun _ _ _ hdisk => .stays hdisk⟩

/-- What the view ends with, of what it started with. -/
theorem Passed.saved {hold ok : Bool} {v₁ : View} (h : Passed keepRules m true hold w v₁ ok v')
    (hordinary : Ordinary names)
    (hdisk : (view keepRules m w).disk (m.root ++ names) = some c) :
    Saved K m (view keepRules m w) [] v' names c := by
  obtain ⟨paths, hnodup, -, hrun⟩ := h.run
  rcases h.start with rfl | rfl
  · exact (hrun.keeping hnodup (.start paths _)).saved names c hordinary hdisk
  · -- the marker is at another place, and neither the store nor the ledger has changed
    have hsaved := (hrun.keeping hnodup (.start paths _)).saved names c hordinary
      ((View.disk_setDisk_of_ne hordinary.free.2 (hordinary.free (r := keepRules)).1 _ _).trans hdisk)
    cases hsaved with
    | stays hstays => exact .stays hstays
    | outdated path hvalid hplace hledger hstore => exact .outdated path hvalid hplace hledger hstore
    | aside path hvalid hdone hs hcopy hstore hledger =>
        exact .aside path hvalid hdone hs hcopy hstore hledger

/-- **A deep pass loses no local content.** On a quiet disk, if the pass meets no link where it
follows one and puts no conflict copy over another content, every content under a name that is not
ignored is still in the folder after the pass, unless the ledger had recorded it at its path and the
store had something else there. -/
theorem reconcile_keeps_content (m : Machine) (deletions : Deletions) (w : World K) (hq : m.Quiet)
    (hs : Sound m.root w.tree) (hstart : w.reached = [])
    (hclear : clearPass keepRules m true deletions w = true) {names : List Str} {c : Bytes}
    (hordinary : Ordinary names) (hc : Files.content w.tree (m.root ++ names) = some c) :
    (∃ names', Files.content (reconcileWith m true deletions w).2.tree (m.root ++ names') = some c) ∨
      ∃ path, validate path = .ok () ∧ m.place path = m.root ++ names ∧
        ledgerHash w.ledger path = some (K.contentHash c) ∧ storeHash w.store path ≠
          some (K.contentHash c) := by
  have hdisk : (view keepRules m w).disk (m.root ++ names) = some c := by
    show hide keepRules m (Files.content w.tree) _ = _
    rw [hide, if_neg hordinary.free.2, hc]
  have hsaved : ∀ {v' : View} {w' : World K}, Sees keepRules m (fun _ => False) v' w' →
      Saved K m (view keepRules m w) [] v' names c →
      (∃ names', Files.content w'.tree (m.root ++ names') = some c) ∨
        ∃ path, validate path = .ok () ∧ m.place path = m.root ++ names ∧
          ledgerHash w.ledger path = some (K.contentHash c) ∧ storeHash w.store path ≠
              some (K.contentHash c) := by
    intro v' w' hsees h
    cases h with
    | stays hstays => exact .inl ⟨names, (hsees.content_eq hordinary.free.2).trans hstays⟩
    | outdated path hvalid hplace hledger hstore => exact .inr ⟨path, hvalid, hplace, hledger, hstore⟩
    | aside path hvalid _ hs hcopy _ _ =>
        exact .inl ⟨_, (hsees.content_eq (place_sibling hvalid hs).2).trans hcopy⟩
  have hholds := reconcileWith_passed hq hs (by simp [hstart]) hclear
  unfold Holds at hholds
  rcases hrun : reconcileWith m true deletions w with ⟨_ | report, w'⟩
  · rw [hrun] at hholds
    obtain ⟨v', hsees, rfl | ⟨hold, v₁, ok, hpassed⟩⟩ := hholds
    · exact hsaved hsees (.stays hdisk)
    · exact hsaved hsees (hpassed.saved hordinary hdisk)
  · rw [hrun] at hholds
    obtain ⟨hold, v₁, ok, v', hsees, hpassed, -⟩ := hholds
    exact hsaved hsees (hpassed.saved hordinary hdisk)

/-- The local version of a conflict is kept. -/
theorem reconcile_keeps_content_busy :
    Files.content (reconcileWith quietMachine true .apply busyWorld).2.tree
      ["f".toList, "a".toList] = some [3] ∧
      ((∃ names', Files.content (reconcileWith quietMachine true .apply busyWorld).2.tree
          (quietMachine.root ++ names') = some [1]) ∨
        ∃ path, validate path = .ok () ∧ quietMachine.place path = quietMachine.root ++ ["a".toList] ∧
          ledgerHash busyWorld.ledger path = some (symbolic.contentHash [1]) ∧
          storeHash busyWorld.store path ≠ some (symbolic.contentHash [1])) := by
  refine ⟨by decide +kernel, ?_⟩
  exact reconcile_keeps_content quietMachine .apply busyWorld (fun _ _ => rfl) (by decide +kernel) rfl
    (by decide +kernel) ⟨[], "a".toList, rfl, by decide⟩ (by decide +kernel)

/-- **A conflict copy goes over whatever has its name.** Here that is a file with a content of its
own, which neither the ledger nor the store knows: after the pass it is nowhere. -/
theorem copy_overwritten :
    let copy := String.ofList (sibling "a".toList (symbolic.contentHash [1]))
    let w := worldOf [(["f", "a"], .file [1] 0), (["f", copy], .file [9] 0)] [("a", [3])] [("a", [0])]
    let after := (reconcileWith quietMachine true .apply w).2
    isIgnored copy.toList = false ∧ Files.content w.tree ["f".toList, copy.toList] = some [9] ∧
      ledgerHash w.ledger copy.toList = none ∧ (∀ r ∈ after.tree.toList, r.2.content? ≠ some [9]) ∧
      ∀ r ∈ after.store.tree.files.toList, r.2.contentHash ≠ symbolic.contentHash [9] := by
  decide +kernel

end Folder
end Itsanas
