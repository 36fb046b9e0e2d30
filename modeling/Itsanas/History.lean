/-
# What a path remembers

A path has one row, and the row one version: there is no history besides. What the
row before said is remembered as far as the version of the row now dominates it.

Every merge keeps every live version somewhere, unless it puts the loser of a
conflict over it that does not know of it (`merge_keeps`): what was live is live still, or its path
has a version, or a delete, that knew of it.

Seen from one path `q` more is true of most merges: the row that follows knows the
row before (`Follows`). The exceptions are those in `Forgets`: an operation that is
concurrent with the delete at `q`, a version that wins a conflict at `q`, and a loser
of another path's conflict put at `q` over something that it does not know. In a run
without them, and without a release of `q`, all the rows `q` ever had are known to the
last one (`Swarm.history_follows`); so deletes stick, and a local write supersedes
everything seen.
-/
import Itsanas.Swarm
import Itsanas.Symbolic

namespace Itsanas

open Walk

variable {K : Crypto}

/-! ### Live versions -/

/-- Of a version that was live at `q`, the rows have this much: the version itself at
some path, or at `q` a version that knew of it, or a delete that did. -/
def Kept (rows : Rows) (q : Path) (f : FileEntry) : Prop :=
  (∃ p, rows p = .file f) ∨ (∃ g, rows q = .file g ∧ f.version < g.version) ∨
    ∃ t, rows q = .gone t ∧ f.version ≤ t.version

/-- The entry is in conflict with the live version of its path, the loser is not placed already,
and its place is `q`, where it is not above what is there. -/
def Lands (rows : Rows) (e : LogEntry) (q : Path) : Prop :=
  ∃ path remote present, e.operation = .upsert path remote ∧ rows path = .file present ∧
    present.version.Apart remote.version ∧ ¬Placed rows path present remote ∧
    q = siblingOf path (loserOf present remote) ∧ ¬(rows q).version < (loserOf present remote).version

variable {q : Path} {e : LogEntry}

/-- **A merge keeps what was live**, but where it puts the loser of a conflict over something that
the loser does not know. -/
theorem merge_keeps (device : DeviceId) {rows : Rows} {f : FileEntry}
    (hf : rows q = .file f) (hl : ¬Lands rows e q) : Kept (merge device rows e).1 q f := by
  have hm := merge_merged device rows e
  generalize (merge device rows e).1 = rows' at hm ⊢
  generalize (merge device rows e).2 = applied at hm
  cases hm with
  | known | dead | placed | lost | deadAlready => exact Or.inl ⟨q, hf⟩
  | adopted path remote hop hrow =>
    by_cases hq : q = path
    · subst hq
      rcases hrow with h | ⟨t, h, -⟩ | ⟨present, h, hlt⟩
      · rw [h] at hf
        cases hf
      · rw [h] at hf
        cases hf
      · rw [h] at hf
        cases hf
        exact Or.inr (Or.inl ⟨remote, Function.update_self _ _ _, hlt⟩)
    · exact Or.inl ⟨q, by rw [Function.update_of_ne hq, hf]⟩
  | removed path v hop hrow =>
    by_cases hq : q = path
    · subst hq
      rcases hrow with h | ⟨t, h, -⟩ | ⟨present, h, hle⟩
      · rw [h] at hf
        cases hf
      · rw [h] at hf
        cases hf
      · rw [h] at hf
        cases hf
        refine Or.inr (Or.inr ⟨e.tombstone device, Function.update_self _ _ _, ?_⟩)
        simpa [LogEntry.tombstone, hop, Operation.version] using hle
    · exact Or.inl ⟨q, by rw [Function.update_of_ne hq, hf]⟩
  | conflicted path remote present hop hrow hapart hplaced =>
    have hlands : q = siblingOf path (loserOf present remote) →
        f.version < (loserOf present remote).version := by
      intro hq
      by_contra hlt
      exact hl ⟨path, remote, present, hop, hrow, hapart, hplaced, hq, by rwa [hf]⟩
    unfold place
    unfold loserOf at hlands
    split_ifs at hlands ⊢
    · by_cases hq : q = path
      · -- the version here moves aside
        subst hq
        rw [hrow] at hf
        cases hf
        exact Or.inl ⟨_, by rw [Function.update_of_ne (siblingOf_ne _ _), Function.update_self]⟩
      by_cases hs : q = siblingOf path present
      · refine Or.inr (Or.inl ⟨present, ?_, hlands hs⟩)
        rw [Function.update_of_ne hq, hs, Function.update_self]
      · exact Or.inl ⟨q, by rw [Function.update_of_ne hq, Function.update_of_ne hs, hf]⟩
    · by_cases hs : q = siblingOf path remote
      · exact Or.inr (Or.inl ⟨remote, by rw [hs, Function.update_self], hlands hs⟩)
      · exact Or.inl ⟨q, by rw [Function.update_of_ne hs, hf]⟩

/-- What a task does to the rows: one merge, or nothing. -/
theorem row_stepTask (source : ChunkSource) (now : ℕ) (a : Applying K) (task : Task) :
    (stepTask source now a task).1.store.row = a.store.row ∨
    ∃ device owner e, task = .entry device owner e ∧
      (stepTask source now a task).1.store.row = (merge device a.store.row e).1 := by
  cases task with
  | entry device owner e =>
    have h := (applyEntry_merges source now a.store a.calls device e owner).rows
    simp only [stepTask, stepEntry]
    rcases hr : applyEntry source now a.store a.calls device e owner with ⟨st, n, error | applied⟩
    all_goals
      rw [hr] at h
      rcases h with ⟨h, -⟩ | ⟨h, -⟩
      · exact Or.inr ⟨device, owner, e, rfl, h⟩
      · exact Or.inl h
  | fail error => exact Or.inl rfl
  | unrostered => exact Or.inl rfl

/-- **No call loses an edit.** A call hands its entries over one by one, and each
time every version that was live is live still at some path, or its own path has a
version or a delete that knew of it; but for a version over which the entry puts the
loser of a conflict that does not know of it. -/
theorem applySegments_keeps_edits (st : Store K) (segments : List (SegmentEnvelope K))
    (source : ChunkSource) (now : ℕ) :
    (applySegments st segments source now).1 =
      (walk (stepTask source now) ⟨st, 0, .new, []⟩ (tasks st .othersOnly segments)).1.store ∧
    Along (stepTask source now)
      (fun a task => ∀ q f, a.store.getFile q = some f →
        Kept (stepTask source now a task).1.store.row q f ∨
        ∃ device owner e, task = .entry device owner e ∧ Lands a.store.row e q)
      ⟨st, 0, .new, []⟩ (tasks st .othersOnly segments) := by
  refine ⟨applyReplaying_store st segments source .othersOnly now,
    along_of_forall _ _ fun a task _ q f hf => ?_⟩
  have hrow := Store.getFile_eq_some.mp hf
  rcases row_stepTask source now a task with h | ⟨device, owner, e, rfl, h⟩
  · exact Or.inl (Or.inl ⟨q, by rw [h, hrow]⟩)
  · by_cases hl : Lands a.store.row e q
    · exact Or.inr ⟨device, owner, e, rfl, hl⟩
    · rw [h]
      exact Or.inl (merge_keeps device hrow hl)

/-- Four devices. The second writes on top of the first one's version, the third writes
apart from both, and the fourth has the first one's version. -/
def supersededThenAside : Swarm symbolic :=
  (Swarm.start 7 fun _ => fourBytes).run
    [.write 1 "p".toList [.data [1]] 5, .flush 1 11, .apply 2 [(1, 0)] oneByteSource 6,
      .write 2 "p".toList [.data [2]] 6, .flush 2 12, .write 3 "p".toList [.data [3]] 6, .flush 3 13,
      .apply 4 [(1, 0)] oneByteSource 7]

/-- One call gives the fourth device the other two: the second's version supersedes the
one it has, and is then moved aside by the third's, which knows of neither. The version
it had is live nowhere, and its path has one that did not know of it. -/
theorem superseded_version_moves_aside :
    let w := supersededThenAside
    let st' := (applySegments (w 4) (w.picked [(2, 0), (3, 0)]) oneByteSource 8).1
    ∃ f ∈ (w 4).getFile "p".toList,
      (∀ q, ∀ g ∈ st'.getFile q, g.version.compare f.version ≠ .equal) ∧
      ∃ g ∈ st'.getFile "p".toList, ¬f.version ≤ g.version := by
  intro w st'
  have h : ∃ f ∈ (w 4).getFile "p".toList,
      (∀ r ∈ st'.tree.files.toList, r.2.version.compare f.version ≠ .equal) ∧
      ∃ g ∈ st'.getFile "p".toList, ¬f.version ≤ g.version := by
    decide +kernel
  obtain ⟨f, hf, hall, hg⟩ := h
  exact ⟨f, hf, fun q g hq => hall (q, g) (Table.mem_toList.mpr hq), hg⟩

/-! ### Rows that know the rows before them -/

/-- The row `r'` knows of `r`, and if that was a delete it is not something deleted. -/
structure Follows (r r' : Row) : Prop where
  version : r.version ≤ r'.version
  stays : r' = .absent → r = .absent
  revived : ∀ t f, r = .gone t → r' = .file f → ¬f.version ≤ t.version

variable {r : Row}

theorem Follows.rfl : Follows r r :=
  ⟨le_rfl, id, fun t f h k => by rw [h] at k; cases k⟩

theorem Follows.trans {a b c : Row} (h : Follows a b) (k : Follows b c) : Follows a c := by
  refine ⟨h.version.trans k.version, fun hc => h.stays (k.stays hc), fun t f ha hc hle => ?_⟩
  cases hb : b with
  | absent =>
    rw [h.stays hb] at ha
    cases ha
  | file g =>
    have hgf : g.version ≤ f.version := by simpa [hb, hc, Row.version] using k.version
    exact h.revived t g ha hb (hgf.trans hle)
  | gone s =>
    have hts : t.version ≤ s.version := by simpa [ha, hb, Row.version] using h.version
    exact k.revived s f hb hc (hle.trans hts)

theorem Follows.of_lt {r r' : Row} (h : r.version < r'.version) : Follows r r' := by
  refine ⟨h.le, fun hr' => ?_, fun t f hr hr' => ?_⟩
  · rw [hr'] at h
    exact absurd (fun d => by simp [Row.version]) h.not_ge
  · rw [hr, hr'] at h
    exact h.not_ge

theorem Follows.absent (h : r ≠ .absent) : Follows .absent r :=
  ⟨fun d => by simp [Row.version], fun hr => absurd hr h, fun t f h => by cases h⟩

theorem Follows.gone {t : Tombstone} (h : r.version ≤ t.version) : Follows r (.gone t) :=
  ⟨h, fun hr => (by cases hr), fun s f _ hr => by cases hr⟩

/-- Whether a version arriving at `path`, where the row is the last argument, puts a row
at `q` that does not know the row there: it is concurrent with the delete at `q`, or
wins a conflict at `q`, or is in a conflict whose loser goes to `q` and is not above
what is there. -/
def UpsertForgets (rows : Rows) (q path : Path) (remote : FileEntry) : Row → Prop
  | .absent => False
  | .gone t => path = q ∧ t.version.Apart remote.version
  | .file present =>
    present.version.Apart remote.version ∧ ¬Placed rows path present remote ∧
      (path = q ∧ winsOriginalPath remote.authorship present.authorship = true ∨
        siblingOf path (loserOf present remote) = q ∧ rows q ≠ .absent ∧
          ¬(rows q).version < (loserOf present remote).version)

/-- Whether a delete arriving at `path` does: it is concurrent with the one at `q`. -/
def RemoveForgets (q path : Path) (v : VersionVector) : Row → Prop
  | .gone t => path = q ∧ t.version.Apart v
  | _ => False

/-- The operation would put a row at `q` that does not know the row there. -/
def Forgets (rows : Rows) (q : Path) : Operation → Prop
  | .upsert path remote => UpsertForgets rows q path remote (rows path)
  | .remove path v => RemoveForgets q path v (rows path)

instance (rows : Rows) (q path : Path) (remote : FileEntry) :
    ∀ row, Decidable (UpsertForgets rows q path remote row)
  | .absent => inferInstanceAs (Decidable False)
  | .gone _ => inferInstanceAs (Decidable (_ ∧ _))
  | .file _ => inferInstanceAs (Decidable (_ ∧ _ ∧ _))

instance (q path : Path) (v : VersionVector) : ∀ row, Decidable (RemoveForgets q path v row)
  | .absent => inferInstanceAs (Decidable False)
  | .gone _ => inferInstanceAs (Decidable (_ ∧ _))
  | .file _ => inferInstanceAs (Decidable False)

instance (rows : Rows) (q : Path) : ∀ op, Decidable (Forgets rows q op)
  | .upsert path remote => inferInstanceAs (Decidable (UpsertForgets rows q path remote (rows path)))
  | .remove path v => inferInstanceAs (Decidable (RemoveForgets q path v (rows path)))

/-- Of two versions neither apart nor the second below, the second is above. -/
theorem lt_of_not_apart {v w : VersionVector} (h : ¬v.Apart w) (k : ¬w ≤ v) : v < w := by
  refine lt_iff_le_not_ge.mpr ⟨?_, k⟩
  by_contra hle
  exact h ⟨hle, k⟩

/-- **A merge that does not forget leaves a row that knows the one before.** -/
theorem merge_follows (device : DeviceId) {rows : Rows}
    (hn : ¬Forgets rows q e.operation) : Follows (rows q) ((merge device rows e).1 q) := by
  have hm := merge_merged device rows e
  generalize (merge device rows e).1 = rows' at hm ⊢
  generalize (merge device rows e).2 = applied at hm
  cases hm with
  | known | dead | placed | lost | deadAlready => exact .rfl
  | adopted path remote hop hrow =>
    by_cases hq : q = path
    · subst hq
      rw [Function.update_self]
      rcases hrow with h | ⟨t, h, hle⟩ | ⟨present, h, hlt⟩
      · rw [h]
        exact .absent (by simp)
      · rw [h]
        refine .of_lt (lt_of_not_apart (fun hap => hn ?_) hle)
        simp only [Forgets, hop, h]
        exact ⟨rfl, hap⟩
      · rw [h]
        exact .of_lt hlt
    · rw [Function.update_of_ne hq]
      exact .rfl
  | removed path v hop hrow =>
    have hv : (e.tombstone device).version = v := by simp [LogEntry.tombstone, hop, Operation.version]
    by_cases hq : q = path
    · subst hq
      rw [Function.update_self]
      rcases hrow with h | ⟨t, h, hle⟩ | ⟨present, h, hle⟩
      · rw [h]
        exact .absent (by simp)
      · rw [h]
        refine .gone (hv ▸ (lt_of_not_apart (fun hap => hn ?_) hle).le)
        simp only [Forgets, hop, h]
        exact ⟨rfl, hap⟩
      · rw [h]
        exact .gone (hv ▸ hle)
    · rw [Function.update_of_ne hq]
      exact .rfl
  | conflicted path remote present hop hrow hapart hplaced =>
    simp only [Forgets, UpsertForgets, hop, hrow, not_and, not_or] at hn
    obtain ⟨hwin, hland⟩ := hn hapart hplaced
    -- at the loser's place only something absent or older is replaced
    have hsib : ∀ f, loserOf present remote = f → siblingOf path f = q →
        Follows (rows q) (.file f) := by
      rintro f rfl hs
      by_cases h0 : rows q = .absent
      · rw [h0]
        exact .absent (by simp)
      · exact .of_lt (not_not.mp (hland hs h0))
    unfold place
    split_ifs with hw
    · have hq : q ≠ path := fun h => hwin h.symm hw
      rw [Function.update_of_ne hq]
      by_cases hs : q = siblingOf path present
      · rw [hs, Function.update_self, ← hs]
        exact hsib present (if_pos hw) hs.symm
      · rw [Function.update_of_ne hs]
        exact .rfl
    · by_cases hs : q = siblingOf path remote
      · rw [hs, Function.update_self, ← hs]
        exact hsib remote (if_neg hw) hs.symm
      · rw [Function.update_of_ne hs]
        exact .rfl

/-! ### Whole runs -/

/-- The task puts no row at `q` that does not know the row there. -/
def Task.Remembers (q : Path) (a : Applying K) : Task → Prop
  | .entry _ _ e => ¬Forgets a.store.row q e.operation
  | _ => True

instance (q : Path) (a : Applying K) : ∀ task : Task, Decidable (task.Remembers q a)
  | .entry _ _ e => inferInstanceAs (Decidable (¬Forgets a.store.row q e.operation))
  | .fail _ => inferInstanceAs (Decidable True)
  | .unrostered => inferInstanceAs (Decidable True)

theorem stepTask_follows (source : ChunkSource) (now : ℕ) (a : Applying K) (task : Task)
    (h : task.Remembers q a) :
    Follows (a.store.row q) ((stepTask source now a task).1.store.row q) := by
  rcases row_stepTask source now a task with hr | ⟨device, owner, e, rfl, hr⟩
  · rw [hr]
    exact .rfl
  · rw [hr]
    exact merge_follows device h

/-- What is asked of an act for `q` to be remembered on `d`: `d` does not release `q`,
and none of the entries it applies forgets the row `q` has when its turn comes. -/
def Act.Remembers (d : DeviceId) (q : Path) (w : Swarm K) : Act → Prop
  | .release d' path _ => d' = d → path ≠ q
  | .apply d' picks source now =>
    d' = d → Along (stepTask source now) (fun a task => task.Remembers q a) ⟨w d, 0, .new, []⟩
      (tasks (w d) .othersOnly (w.picked picks))
  | _ => True

instance (d : DeviceId) (q : Path) (w : Swarm K) : ∀ a : Act, Decidable (a.Remembers d q w)
  | .release _ _ _ => inferInstanceAs (Decidable (_ → _))
  | .apply _ _ _ _ => inferInstanceAs (Decidable (_ → _))
  | .write _ _ _ _ | .remove _ _ _ | .removeUnheld _ _ _ _ | .flush _ _ =>
    inferInstanceAs (Decidable True)

namespace Swarm

/-- `P` holds of every act of a run, in the swarm it is made in. -/
def Throughout (P : Swarm K → Act → Prop) : Swarm K → List Act → Prop
  | _, [] => True
  | w, a :: acts => P w a ∧ Throughout P (w.act a) acts

instance Throughout.decidable (P : Swarm K → Act → Prop) [h : ∀ w a, Decidable (P w a)] :
    ∀ w acts, Decidable (Throughout P w acts)
  | _, [] => isTrue trivial
  | w, a :: acts =>
    have := Throughout.decidable P (w.act a) acts
    inferInstanceAs (Decidable (P w a ∧ Throughout P (w.act a) acts))

/-- The stores `d` has before an act and while it is made. -/
def passed (w : Swarm K) (d : DeviceId) : Act → List (Store K)
  | .apply d' picks source now =>
    if d' = d then
      (trail (stepTask source now) ⟨w d, 0, .new, []⟩
        (tasks (w d) .othersOnly (w.picked picks))).map Applying.store
    else [w d]
  | _ => [w d]

/-- Every store `d` has in a run, between the entries of one call as well. -/
def history (d : DeviceId) : Swarm K → List Act → List (Store K)
  | w, [] => [w d]
  | w, a :: acts => w.passed d a ++ history d (w.act a) acts

variable {owner : UserId} {w : Swarm K} {d : DeviceId}

theorem Inv.logged_follows (h : Inv owner w)
    {base : VersionVector} {st' : Store K} (hl : Logged (w d) st' e)
    (hs : Stamp (w d) e base) (hb : w.Bounded base)
    (hle : ((w d).row e.operation.path).version ≤ base) :
    Follows ((w d).row q) (st'.row q) := by
  rw [hl.row]
  by_cases hq : q = e.operation.path
  · subst hq
    rw [Function.update_self]
    exact .of_lt (h.row_lt hs hb hle)
  · rw [Function.update_of_ne hq]
    exact .rfl

/-- An act other than an application keeps the row of `q` or puts one above it. -/
theorem acted_follows (h : Inv owner w) {a : Act}
    (ha : a.Remembers a.device q w) (hn : ∀ d picks source now, a ≠ .apply d picks source now) :
    Follows ((w a.device).row q) ((w.acted a).row q) := by
  have hm := act_moved h.toHomes a
  generalize w.acted a = st' at hm ⊢
  cases hm with
  | still a st' hu =>
    rw [hu.row]
    exact .rfl
  | wrote d path reader now entry st' hlog hstamp =>
    exact h.logged_follows hlog hstamp (h.bounded_row d path) le_rfl
  | removed d path now t f st' hrow hlog hstamp =>
    exact h.logged_follows hlog hstamp (h.bounded_row d path) le_rfl
  | removedUnheld d path seen now t st' hlog hstamp =>
    exact h.logged_follows hlog hstamp ((h.bounded_row d path).merge (h.bounded_seen seen))
      (VersionVector.le_merge_left _ _)
  | released d path now f st' hrow hnode hrow' =>
    rw [hrow', Function.update_of_ne fun hq => ha rfl hq.symm]
    exact .rfl
  | flushed d segmentId e hs => exact .rfl
  | merged d picks source now st' hnode hrows => exact absurd rfl (hn d picks source now)

/-- **The row after an act that remembers knows every row before and during it.** -/
theorem passed_follows (h : Inv owner w)
    {a : Act} (ha : a.Remembers d q w) :
    ∀ st ∈ w.passed d a, Follows (st.row q) ((w.act a d).row q) := by
  intro st hst
  by_cases hd : a.device = d
  · by_cases happ : ∃ d' picks source now, a = .apply d' picks source now
    · obtain ⟨d', picks, source, now, rfl⟩ := happ
      obtain rfl : d' = d := hd
      rw [passed, if_pos rfl] at hst
      obtain ⟨s, hs, rfl⟩ := List.mem_map.mp hst
      have hrel :=
        (trail_related (R := fun x y : Applying K => Follows (x.store.row q) (y.store.row q))
        (fun _ => .rfl) .trans (stepTask_follows source now) _ _ (ha rfl)).2 s hs
      rw [show w.act _ d' = (applySegments (w d') (w.picked picks) source now).1 from act_self w _,
        applySegments, applyReplaying_store]
      exact hrel
    · push Not at happ
      have hst' : st = w d := by
        cases a with
        | apply d' picks source now => exact absurd rfl (happ d' picks source now)
        | write | remove | removeUnheld | release | flush => exact List.mem_singleton.mp hst
      subst hd
      rw [hst', act_self]
      exact acted_follows h ha happ
  · have hst' : st = w d := by
      cases a with
      | apply d' picks source now =>
        rw [passed, if_neg (show d' ≠ d from hd)] at hst
        exact List.mem_singleton.mp hst
      | write | remove | removeUnheld | release | flush => exact List.mem_singleton.mp hst
    rw [hst', act_other w (Ne.symm hd)]
    exact .rfl

theorem mem_passed_self (w : Swarm K) (d : DeviceId) (a : Act) : w d ∈ w.passed d a := by
  cases a with
  | apply d' picks source now =>
    rw [passed]
    split_ifs
    · exact List.mem_map.mpr ⟨_, self_mem_trail _ _ _, rfl⟩
    · exact List.mem_singleton.mpr rfl
  | write | remove | removeUnheld | release | flush => exact List.mem_singleton.mpr rfl

theorem mem_history_self (d : DeviceId) : ∀ (acts : List Act) (w : Swarm K), w d ∈ history d w acts
  | [], _ => List.mem_singleton.mpr rfl
  | a :: _, w => List.mem_append_left _ (mem_passed_self w d a)

/-- **In a run that remembers `q`, its last row knows all the rows it ever had.** -/
theorem history_follows : ∀ (acts : List Act) {w : Swarm K},
    Inv owner w → Throughout (fun w a => a.Remembers d q w) w acts →
    ∀ st ∈ history d w acts, Follows (st.row q) ((w.run acts d).row q)
  | [], w, _, _, st, hst => by
    rw [List.mem_singleton.mp hst]
    exact .rfl
  | a :: acts, w, h, ⟨ha, hrest⟩, st, hst => by
    have ih := history_follows acts (inv_act h a) hrest
    rcases List.mem_append.mp hst with hp | hh
    · exact (passed_follows h ha st hp).trans (ih _ (mem_history_self d acts (w.act a)))
    · exact ih st hh

section
variable {owner : UserId} {w : Swarm K} (hw : Reachable owner w) {acts : List Act} {d : DeviceId}
  {q : Path} (hrem : Throughout (fun w a => a.Remembers d q w) w acts) {st : Store K}
  (hst : st ∈ history d w acts)
include hw hrem hst

/-- **Deletes stick.** In a run that remembers `q` on `d`, once a delete of `q` is
recorded there no version that it dominates is live at `q` again, at whatever point of
whatever call the delete came. -/
theorem deletes_stick {t : Tombstone} (ht : st.row q = .gone t) {f : FileEntry}
    (hf : (w.run acts d).getFile q = some f) : ¬f.version ≤ t.version :=
  (history_follows acts hw.inv hrem st hst).revived t f ht (Store.getFile_eq_some.mp hf)

/-- **A local write or delete supersedes everything seen.** In a run that remembers `q`
on `d`, what `d` then stamps on a write or a delete of `q` strictly dominates every
version that was ever live or deleted there. -/
theorem write_supersedes :
    (∀ reader now st' entry, (w.run acts d).writeStream q reader now = (st', .ok entry) →
      (st.row q).version < entry.version) ∧
    ∀ now st', (w.run acts d).removeFile q now = (st', .ok true) →
      ∃ t, st'.row q = .gone t ∧ (st.row q).version < t.version := by
  have hinv := (hw.run acts).inv
  have hle := (history_follows acts hw.inv hrem st hst).version
  generalize w.run acts = w' at hinv hle ⊢
  -- a stamp on top of the last row is above all of them
  have hlt : ∀ e, Stamp (w' d) e ((w' d).row q).version →
      (st.row q).version < (e.row (w' d).device).version :=
    fun e hs => hle.trans_lt (hinv.row_lt hs (hinv.bounded_row d q) le_rfl)
  refine ⟨fun reader now st' entry heq => ?_, fun now st' heq => ?_⟩
  · rcases (w' d).writeStream_cases q reader now with ⟨st₁, error, h, -⟩ | ⟨st₁, f, h, -, -, hs⟩
    · rw [h] at heq
      cases heq
    · rw [h] at heq
      cases heq
      exact hlt _ hs
  · rcases (w' d).removeFile_cases q now with ⟨r, h, hr⟩ | ⟨st₁, t, f, h, -, -, hl, hs⟩
    · rw [h] at heq
      cases heq
      exact absurd rfl hr
    · rw [h] at heq
      cases heq
      refine ⟨_, ?_, hlt _ hs⟩
      rw [hl.row]
      exact Function.update_self _ _ _

end

/-- The second device takes the first one's version, and deletes it. -/
def deleted : Swarm symbolic :=
  (start 7 fun _ => fourBytes).run
    [.write 1 "p".toList [.data [1]] 5, .flush 1 11, .apply 2 [(1, 0)] oneByteSource 6,
      .remove 2 "p".toList 7]

/-- It is given that version again, and writes the path anew. -/
def recreated : List Act :=
  [.apply 2 [(1, 0)] oneByteSource 8, .write 2 "p".toList [.data [2]] 9]

theorem deletes_stick_recreated :
    ∃ t f, (deleted 2).row "p".toList = .gone t ∧
      (deleted.run recreated 2).getFile "p".toList = some f ∧ ¬f.version ≤ t.version := by
  have hrem : Throughout (fun w a => a.Remembers 2 "p".toList w) deleted recreated := by
    decide +kernel
  obtain ⟨t, ht⟩ : ∃ t, (deleted 2).row "p".toList = .gone t := ⟨_, rfl⟩
  obtain ⟨f, hf⟩ : ∃ f, (deleted.run recreated 2).getFile "p".toList = some f :=
    Option.isSome_iff_exists.mp (by decide +kernel)
  exact ⟨t, f, ht, hf, deletes_stick ⟨_, _, rfl⟩ hrem (mem_history_self 2 recreated deleted) ht hf⟩

theorem write_supersedes_recreated :
    ∃ entry st', (deleted.run recreated 2).writeStream "p".toList [] 10 = (st', .ok entry) ∧
      ((deleted 2).row "p".toList).version < entry.version := by
  have hrem : Throughout (fun w a => a.Remembers 2 "p".toList w) deleted recreated := by
    decide +kernel
  obtain ⟨entry, st', h⟩ : ∃ entry st',
      (deleted.run recreated 2).writeStream "p".toList [] 10 = (st', .ok entry) := ⟨_, _, rfl⟩
  exact ⟨entry, st', h,
    (write_supersedes ⟨_, _, rfl⟩ hrem (mem_history_self 2 recreated deleted)).1 _ _ _ _ h⟩

/-- Two devices write one path apart, and the second one's user deletes the copy that
the conflict put beside it. -/
def deletedSibling : Swarm symbolic :=
  (start 7 fun _ => fourBytes).run
    [.write 1 "p".toList [.data [1]] 5, .flush 1 11, .write 2 "p".toList [.data [2]] 5,
      .apply 2 [(1, 0)] oneByteSource 6, .remove 2 (siblingPath "p".toList 1 1) 7]

/-- The same segment once more brings the copy back, under the version deleted. -/
theorem deleted_sibling_returns :
    ∃ t ∈ (deletedSibling 2).getTombstone (siblingPath "p".toList 1 1),
      ∃ f ∈ (deletedSibling.run [.apply 2 [(1, 0)] oneByteSource 8] 2).getFile
        (siblingPath "p".toList 1 1), f.version ≤ t.version := by
  decide +kernel

/-- The second device takes the first one's version of an empty file, which needs no
holders to be released. -/
def taken : Swarm symbolic :=
  (start 7 fun _ => fourBytes).run
    [.write 1 "p".toList [] 5, .flush 1 11, .apply 2 [(1, 0)] oneByteSource 6]

/-- Released and written again, the path has a version that does not know the one it
had. -/
theorem released_version_is_not_superseded :
    ∃ f ∈ (taken 2).getFile "p".toList,
      ∃ g ∈ (taken.run [.release 2 "p".toList 7, .write 2 "p".toList [.data [2]] 8] 2).getFile
        "p".toList,
        g.author = 2 ∧ ¬f.version < g.version := by
  decide +kernel

end Swarm

end Itsanas
