/-
# A whole pass, seen from outside

A pass takes the paths that the disk, the store or the ledger knows, one after the other, each by
one step of the view (`Folder.Run`); before that it may write its marker. That is all there is to
it (`Folder.reconcileWith_passed`), as long as nothing else changes the disk and the pass meets no
symbolic link where it would follow one: on the way to a path when it comes to it, at the marker
when it reads it, at the staging directory and the staging file when it is about to use them
(`Folder.clearPass`).

Such a pass never leaves the folder (`Folder.reconcile_contained`). A link on the way to a path
leads it out (`Folder.link_leads_out`).
-/
import Itsanas.Scan

namespace Itsanas
namespace Folder

open Files Effects

variable {K : Crypto} {r : Rules} {m : Machine} {D : Loc Str → Prop} {v v' v'' : View} {w : World K}
  {deep hold : Bool}

/-! ### Trees -/

/-- A tree in which everything below the root is in a directory, under names without a slash. -/
def Sound (root : Loc Str) (t : Tree Str Bytes) : Prop :=
  ∀ r ∈ t.toList, root <+: r.1.dropLast →
    isDir t r.1.dropLast = true ∧ ∀ name ∈ r.1.drop root.length, '/' ∉ name

instance instDecidableSound (root : Loc Str) (t : Tree Str Bytes) : Decidable (Sound root t) :=
  inferInstanceAs (Decidable (∀ r ∈ t.toList, _))

theorem Sound.rooted {t : Tree Str Bytes} (h : Sound m.root t) {loc : Loc Str} {name : Str}
    {node : Node Str Bytes}
    (hnode : t[loc ++ [name]]? = some node) (hin : m.root <+: loc) : isDir t loc = true := by
  have hrow := h (loc ++ [name], node) (mem_rows.mpr hnode)
  rw [List.dropLast_concat] at hrow
  exact (hrow hin).1

theorem Sound.names {t : Tree Str Bytes} (h : Sound m.root t) {names : List Str}
    {node : Node Str Bytes}
    (hnode : t[m.root ++ names]? = some node) : ∀ name ∈ names, '/' ∉ name := by
  rcases eq_or_ne names [] with rfl | hne
  · simp
  · have hrow := (h (m.root ++ names, node) (mem_rows.mpr hnode) ?_).2
    · rwa [List.drop_left] at hrow
    · rw [List.dropLast_append_of_ne_nil hne]
      exact List.prefix_append _ _

/-- A pass from there on sees what is there. -/
theorem Sound.sees (h : Sound m.root w.tree) (hreached : ∀ loc ∈ w.reached, m.root <+: loc) :
    Sees r m (fun _ => False) (view r m w) (fresh w) :=
  ⟨⟨fun _ _ _ => h.rooted, (by simp)⟩, hreached, rfl⟩

/-- Names to sync are those of their path. -/
theorem components_of_toLogical {names : List Str} {path : Path} (h : toLogical names = some path)
    (hslash : ∀ name ∈ names, '/' ∉ name) : validate path = .ok () ∧ components path = names := by
  unfold toLogical at h
  split_ifs at h with hignored hempty
  split at h
  · cases h
  · rename_i hvalid
    cases h
    refine ⟨hvalid, ?_⟩
    rw [components_eq hvalid]
    exact List.splitOn_intercalate '/' hslash hempty

/-! ### Runs of a view -/

/-- Paths reconciled one after the other, and whether none failed. -/
inductive Run (K : Crypto) (r : Rules) (m : Machine) (deep hold : Bool) :
    List Path → View → Bool → View → Prop
  | nil {v : View} : Run K r m deep hold [] v true v
  | cons {path : Path} {paths : List Path} {v v' v'' : View} {ok ok' : Bool} :
      Steps K r m deep hold path v ok v' → Run K r m deep hold paths v' ok' v'' →
        Run K r m deep hold (path :: paths) v (ok && ok') v''

/-- What is reported along the way: the failures, if there are any. -/
structure Followed (w : World K) (ok : Bool) (w' : World K) : Prop where
  failed : ∃ more, w'.report.failed = w.report.failed ++ more ∧ (more = [] → ok = true)
  held : w'.report.heldDeletions = w.report.heldDeletions
  onward : Onward w.store w'.store

theorem Followed.trans {w w' w'' : World K} {ok ok' : Bool} (h : Followed w ok w')
    (h' : Followed w' ok' w'') :
    Followed w (ok && ok') w'' := by
  obtain ⟨more, hmore, hok⟩ := h.failed
  obtain ⟨more', hmore', hok'⟩ := h'.failed
  refine ⟨⟨more ++ more', by rw [hmore', hmore, List.append_assoc], fun hnil => ?_⟩,
    h'.held.trans h.held, h.onward.trans h'.onward⟩
  obtain ⟨hnil, hnil'⟩ := List.append_eq_nil_iff.mp hnil
  rw [hok hnil, hok' hnil']
  rfl

theorem Keeps.followed {w w' : World K} (h : Keeps w w') : Followed w true w' :=
  ⟨⟨[], by rw [h.failed, List.append_nil], fun _ => rfl⟩, h.held, h.onward⟩

/-- Every path, when the pass comes to it, is one it comes to by no link and keeps to the rules
at. -/
def clearPaths (r : Rules) (m : Machine) (deep hold : Bool) : List Path → World K → Bool
  | [], _ => true
  | path :: paths, w =>
    clearStep r m deep path w && clearPaths r m deep hold paths (reconcileNext m deep hold path w).2

section
variable (hq : m.Quiet)
include hq

theorem reconcileNext_run (h : Sees r m D v w) {path : Path}
    (hclear : clearStep r m deep path w = true) {E : FolderError → World K → Prop} :
    Holds (reconcileNext m deep hold path) w
      (fun _ w' => ∃ ok v', Sees r m D v' w' ∧ Steps K r m deep hold path v ok v' ∧
        Followed w ok w') E := by
  unfold reconcileNext
  rw [holds_tryCatch]
  refine ((reconcileOne_step hq h hclear hold).and (reconcileOne_removes deep hold path w)).mono ?_ ?_
  · rintro - w' ⟨⟨v', hw', hsteps⟩, hkeeps | hremoves⟩
    · exact ⟨true, v', hw', hsteps, hkeeps.followed⟩
    · refine ⟨true, v', hw', hsteps, ⟨[], ?_, fun _ => rfl⟩, hremoves.held, hremoves.onward⟩
      rw [hremoves.failed, List.append_nil]
  · rintro error w' ⟨⟨v', hw', hsteps⟩, hkeeps⟩
    refine ⟨false, v', hw'.withReport, hsteps, ⟨[(path, error)], ?_, (by simp)⟩, hkeeps.held,
      hkeeps.onward⟩
    show w'.report.failed ++ [(path, error)] = _
    rw [hkeeps.failed]

/-- **Reconciling paths one after the other is a run of the view.** -/
theorem forM_run : ∀ {paths : List Path} {v : View} {w : World K}, Sees r m D v w →
    clearPaths r m deep hold paths w = true →
    Holds (paths.forM (reconcileNext m deep hold)) w
      (fun _ w' => ∃ ok v', Sees r m D v' w' ∧ Run K r m deep hold paths v ok v' ∧ Followed w ok w')
      fun _ _ => False
  | [], v, w, h, _ => ⟨true, v, h, .nil, (Std.Refl.refl w : Keeps w w).followed⟩
  | path :: paths, v, w, h, hclear => by
    obtain ⟨hfirst, hrest⟩ := Bool.and_eq_true_iff.mp hclear
    show Holds (reconcileNext m deep hold path >>= fun _ => paths.forM (reconcileNext m deep hold))
      w _ _
    rw [holds_bind]
    refine ((reconcileNext_run hq h hfirst).and holds_self).mono ?_ fun _ _ hw => hw.1
    rintro _ w₁ ⟨⟨ok, v₁, h₁, hsteps, hfollowed⟩, hnext⟩
    rw [hnext] at hrest
    refine (forM_run h₁ hrest).mono ?_ fun _ _ hw => hw
    rintro - w₂ ⟨ok', v₂, h₂, hrun, hfollowed'⟩
    exact ⟨ok && ok', v₂, h₂, .cons hsteps hrun, hfollowed.trans hfollowed'⟩

end

/-! ### The pass -/

theorem noteRenames_sees (h : Sees r m D v w) :
    Holds (noteRenames (K := K)) w (fun _ w' => Sees r m D v w' ∧ Keeps w w') fun _ w' =>
      Sees r m D v w' := by
  have hsees : Holds (noteRenames (K := K)) w (fun _ w' => Sees r m D v w') fun _ w' =>
      Sees r m D v w' := by
    unfold noteRenames
    rw [holds_bind, holds_get]
    split_ifs
    · exact ⟨h.tame, h.inside, h.view⟩
    · exact h
  exact (hsees.and (noteRenames_keeps w)).mono (fun _ _ hw => hw) fun _ _ hw => hw.1

/-- A flush leaves the view, and nothing to flush. -/
theorem flushSegment_sees (h : Sees r m D v w) :
    Holds (onStore m fun _ st => st.flushSegment m.segmentId) w
      (fun _ w' => Sees r m D v w' ∧ Keeps w w' ∧ w'.report = w.report ∧
        (LogOk w.store.owner w.store.device w.store.index.log → w'.store.index.log.pendingEntries =
          []))
      fun _ w' => Sees r m D v w' := by
  have hrow : (w.store.flushSegment m.segmentId).1.row = w.store.row := by
    unfold Store.row
    rw [(flushSegment_tree w.store m.segmentId).1]
  have hkeeps := flushSegment_keeps (m := m) m.segmentId w
  rw [holds_onStore] at hkeeps ⊢
  refine ⟨fun a ha => ⟨h.withStore hrow, hkeeps.1 a ha, rfl, fun hlog => ?_⟩, fun _ _ =>
    h.withStore hrow⟩
  show (w.store.flushSegment m.segmentId).1.index.log.pendingEntries = []
  rcases Store.flushSegment_spec hlog m.segmentId with ⟨hnone, hflush⟩ | ⟨e, he, hflush⟩
  · rw [hflush]
    exact hnone
  · rw [hflush]
    unfold LogTables.pendingEntries
    exact List.map_eq_nil_iff.mpr (hlog.pending_appended he)

/-- A path that the disk, the store or the ledger has. -/
def Knows (root : Loc Str) (w : World K) (path : Path) : Prop :=
  (∃ names, toLogical names = some path ∧ Files.content w.tree (root ++ names) ≠ none) ∨
    w.store.getFile path ≠ none ∨ w.ledger[path]? ≠ none

/-- A pass that was not refused: it starts from the view of `w`, with the marker, and runs over
the paths that are known. -/
structure Passed (r : Rules) (m : Machine) (deep hold : Bool) (w : World K) (v₁ : View) (ok : Bool)
    (v' : View) : Prop where
  start : v₁ = view r m w ∨
    v₁ = (view r m w).setDisk r m m.markerAt (some (asciiBytes (toHex w.store.device)))
  run : ∃ paths : List Path, paths.Nodup ∧ (∀ path, path ∈ paths ↔ Knows m.root w path) ∧
    Run K r m deep hold paths v₁ ok v'

/-- What a pass reports at its end. -/
structure Ended (w : World K) (hold ok : Bool) (report : Report) (w' : World K) : Prop where
  failed : report.failed = [] → ok = true
  held : report.heldDeletions = 0 → hold = false
  onward : Onward w.store w'.store
  flushed : LogOk w.store.owner w.store.device w.store.index.log →
    w'.store.index.log.pendingEntries = []

variable {deletions : Deletions}

theorem heldCount_pos {ledger : Table Path LocalState} {found : Table Path DiskFile}
    (h : (heldCount deletions ledger found).getD 0 = 0) :
    (heldCount deletions ledger found).isSome = false := by
  cases hcount : heldCount deletions ledger found with
  | none => rfl
  | some count =>
    rw [hcount] at h
    obtain rfl : count = 0 := h
    unfold heldCount at hcount
    split at hcount
    · cases hcount
    · unfold deletionsAreTooMany at hcount
      split_ifs at hcount with hmany
      have hzero := Option.some.inj hcount
      omega

theorem reconcileFound_run (hq : m.Quiet) (h : Sees r m D v w) {found : Table Path DiskFile}
    (hclear : clearPaths r m deep (heldCount deletions w.ledger found).isSome
      (knownPaths found w.store w.ledger)
      (holding (heldCount deletions w.ledger found) w) = true) :
    Holds (reconcileFound m deep deletions found) w
      (fun report w' => ∃ hold ok v', Sees r m D v' w' ∧
        Run K r m deep hold (knownPaths found w.store w.ledger) v ok v' ∧ Ended w hold ok report w')
      fun _ w' => ∃ hold ok v', Sees r m D v' w' ∧
        Run K r m deep hold (knownPaths found w.store w.ledger) v ok v' := by
  unfold reconcileFound
  simp only [holds_bind, holds_get]
  show Holds ((knownPaths found w.store w.ledger).forM _)
    (holding (heldCount deletions w.ledger found) w) _ _
  have hstart : Sees r m D v (holding (heldCount deletions w.ledger found) w) :=
    ⟨h.tame, h.inside, h.view⟩
  refine (forM_run hq hstart hclear).mono ?_ fun _ _ hw => hw.elim
  rintro - w₁ ⟨ok, v₁, h₁, hrun, hfollowed⟩
  refine (noteRenames_sees h₁).mono ?_ fun _ _ hw => ⟨_, ok, v₁, hw, hrun⟩
  rintro - w₂ ⟨h₂, hkeeps⟩
  refine (flushSegment_sees h₂).mono ?_ fun _ _ hw => ⟨_, ok, v₁, hw, hrun⟩
  rintro - w₃ ⟨h₃, hkeeps', -, hflushed⟩
  have hall := (hfollowed.trans hkeeps.followed).trans hkeeps'.followed
  refine ⟨_, ok, v₁, h₃, hrun, fun hnone => ?_, fun hzero => ?_, hall.onward, fun hlog => ?_⟩
  · obtain ⟨more, hmore, hok⟩ := hall.failed
    have hnil : more = [] := by
      rw [hnone] at hmore
      exact (List.append_eq_nil_iff.mp hmore.symm).2
    simpa using hok hnil
  · exact heldCount_pos (hall.held.symm.trans hzero)
  · exact hflushed (hkeeps.onward.log (hfollowed.onward.log hlog))

/-- A pass meets no link where it would follow one, and keeps to the rules, as far as it gets: the
marker, once the folder has been scanned, and every path when it comes to it. -/
def clearPass (r : Rules) (m : Machine) (deep : Bool) (deletions : Deletions) (w : World K) : Bool :=
  match scan m (fresh w) with
  | (.error _, _) => true
  | (.ok found, w₁) =>
    plainAt w₁.tree m.markerAt &&
      match checkStorage m found w₁ with
      | (.error _, _) => true
      | (.ok _, w₂) =>
        let hold := heldCount deletions w₂.ledger found
        clearPaths r m deep hold.isSome (knownPaths found w₂.store w₂.ledger) (holding hold w₂)

/-- **A pass on a quiet disk that meets no link is a run over the paths that are known**, after the
marker has been written, or it is refused and has changed nothing. -/
theorem reconcileWith_passed (hq : m.Quiet) (hs : Sound m.root w.tree)
    (hreached : ∀ loc ∈ w.reached, m.root <+: loc)
    (hclear : clearPass r m deep deletions w = true) :
    Holds (reconcileWith m deep deletions) w
      (fun report w' => ∃ hold v₁ ok v', Sees r m (fun _ => False) v' w' ∧
        Passed r m deep hold w v₁ ok v' ∧ Ended w hold ok report w' ∧
        (w.tree[m.markerAt]? ≠ some .dir → Marked m w.store.device v₁))
      fun _ w' => ∃ v', Sees r m (fun _ => False) v' w' ∧ (v' = view r m w ∨
        ∃ hold v₁ ok, Passed r m deep hold w v₁ ok v') := by
  have h : Sees r m (fun _ => False) (view r m w) (fresh w) := hs.sees hreached
  unfold clearPass at hclear
  unfold reconcileWith
  rw [holds_bind, holds_modify, holds_bind]
  show Holds (scan m) (fresh w) _ _
  refine ((scan_holds hq h).and holds_self).mono ?_ fun _ _ hw => ⟨_, hw.1.2.1, .inl rfl⟩
  rintro found w₁ ⟨⟨hlooked, h₁, hroot, hfound⟩, hscan⟩
  rw [hscan] at hclear
  obtain ⟨hplain, hclear⟩ := Bool.and_eq_true_iff.mp hclear
  rw [holds_bind]
  refine (((checkStorage_holds hq hplain h₁.now found).and (checkStorage_diskOnly found w₁)).and
    holds_self).mono ?_
    fun _ _ hw => ⟨_, hw.1.1.weaken fun _ => False.elim, .inl rfl⟩
  rintro _ w₂ ⟨⟨⟨v₁, h₂, hstart, hmarked⟩, honly⟩, hcheck⟩
  rw [hcheck] at hclear
  have hstore : w₂.store = w.store := honly.store.trans hlooked.store
  have hledger : w₂.ledger = w.ledger := honly.ledger.trans hlooked.ledger
  have hdevice : w₁.store.device = w.store.device := by rw [hlooked.store]; rfl
  rw [hdevice] at hstart hmarked
  rw [hlooked.tree] at hmarked
  have hknown : ∀ path, path ∈ knownPaths found w₂.store w₂.ledger ↔ Knows m.root w path := by
    intro path
    rw [mem_knownPaths, hstore, hledger, hfound]
    rfl
  refine (reconcileFound_run hq (h₂.weaken fun _ => False.elim) hclear).mono ?_ ?_
  · rintro report w₃ ⟨hold, ok, v', h₃, hrun, hended⟩
    refine ⟨hold, v₁, ok, v', h₃, ⟨hstart, _, nodup_knownPaths .., hknown, hrun⟩, ?_, hmarked hroot⟩
    exact ⟨hended.failed, hended.held, hstore ▸ hended.onward, hstore ▸ hended.flushed⟩
  · rintro - w₃ ⟨hold, ok, v', h₃, hrun⟩
    exact ⟨v', h₃, .inr ⟨hold, v₁, ok, hstart, _, nodup_knownPaths .., hknown, hrun⟩⟩

/-- No rule but that no link be met. -/
def Rules.none : Rules := ⟨fun _ => true, fun _ _ _ => true, fun _ => true⟩

/-- **A pass never leaves the folder**, unless it meets a link where it follows one: on the way to a
path it has come to, at the marker it reads, or at the staging directory or the staging file it is
about to use. Whatever other links there are, and whatever the store and the ledger say. -/
theorem reconcile_contained (m : Machine) (deep : Bool) (deletions : Deletions) (w : World K)
    (hq : m.Quiet)
    (hs : Sound m.root w.tree) (hstart : w.reached = [])
    (hclear : clearPass .none m deep deletions w = true) :
    ∀ loc ∈ (reconcileWith m deep deletions w).2.reached, m.root <+: loc := by
  have hholds := reconcileWith_passed hq hs (by simp [hstart]) hclear
  unfold Holds at hholds
  rcases hrun : reconcileWith m deep deletions w with ⟨_ | report, w'⟩
  · rw [hrun] at hholds
    obtain ⟨v', hsees, -⟩ := hholds
    exact hsees.inside
  · rw [hrun] at hholds
    obtain ⟨hold, v₁, ok, v', hsees, -⟩ := hholds
    exact hsees.inside

/-- A folder with a link that leads out of it, and a file elsewhere. -/
def linkedWorld (stored recorded : List (String × Bytes)) : World symbolic :=
  worldOf [(["f", "l"], .link true [some "o".toList]), (["f", "a"], .file [1] 0), (["o"], .dir)]
    stored recorded

/-- A link leads out of the folder, a file is edited and another comes from the store: the pass
stays in the folder. -/
theorem reconcile_contained_linked :
    let w := linkedWorld [("a", [3]), ("d/x", [7])] [("a", [3])]
    (reconcileWith quietMachine true .apply w).2.report.exported = ["d/x".toList] ∧
      ∀ loc ∈ (reconcileWith quietMachine true .apply w).2.reached, quietMachine.root <+: loc := by
  intro w
  refine ⟨by decide +kernel, ?_⟩
  exact reconcile_contained quietMachine true .apply w (fun _ _ => rfl) (by decide +kernel) rfl
    (by decide +kernel)

/-- **A link on the way to a path leads out.** The store has a file `l/x`, and `l` is a link. -/
theorem link_leads_out :
    let w := linkedWorld [("l/x", [7])] []
    let after := (reconcileWith quietMachine true .apply w).2
    Sound quietMachine.root w.tree ∧ validate "l/x".toList = .ok () ∧
      Files.content w.tree ["o".toList, "x".toList] = none ∧
      Files.content after.tree ["o".toList, "x".toList] = some [7] ∧
      ¬∀ loc ∈ after.reached, quietMachine.root <+: loc := by
  decide +kernel

end Folder
end Itsanas
