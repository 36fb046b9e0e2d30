/-
# Rounds come to rest

A device applies the same segments round after round. A round that reports nothing
leaves the store as it is, and so do all the rounds after it; the question is whether
there is one.

Not always. A path has one tombstone, and a delete that is concurrent with it takes
its place, so two deletes that did not know of each other take turns for ever
(`deletes_take_turns`). Nor is a conflict ever over once the loser's place has
been written to. So the deletes of each path are to be ordered, or all known to a version
of it, and nothing else is to go to the places of conflicts (`Orderly`). Then a merge that
does something makes progress: a loser gets its place and keeps it, or, with the places as
they were, a path has a delete, or a version, less ahead of it. Where a version knows of
all the deletes, they may take turns until it is handed over, and not in the next round
(`progress_merge`, `walk_settles`). What is left are finite sets that only shrink, so some
round does nothing (`settles`).
-/
import Itsanas.Swarm
import Itsanas.Symbolic

namespace Itsanas

open Walk

/-! ### What the entries put together -/

/-- The versions among operations, with their paths. -/
def upserts (ops : List (DeviceId × LogEntry)) : List (Path × FileEntry) :=
  ops.filterMap fun r =>
    match r.2.operation with
    | .upsert path f => some (path, f)
    | .remove _ _ => none

/-- The deletes among operations. -/
def removes (ops : List (DeviceId × LogEntry)) : List (Path × VersionVector) :=
  ops.filterMap fun r =>
    match r.2.operation with
    | .remove path v => some (path, v)
    | .upsert _ _ => none

/-- Of some versions, those with which another one of their path is in conflict. -/
def contested (versions : List (Path × FileEntry)) : List (Path × FileEntry) :=
  versions.filter fun x => ∃ y ∈ versions, y.1 = x.1 ∧ y.2.version.Apart x.2.version

section
variable (rows : Rows) (handed : List (DeviceId × LogEntry))

/-- The versions that may be live at a path: those handed over, and the one there. -/
def candidates : List (Path × FileEntry) :=
  upserts handed ++ handed.filterMap fun r =>
    match rows r.2.operation.path with
    | .file f => some (r.2.operation.path, f)
    | _ => none

/-- The deletes a path may have: those handed over, and the one there. -/
def deletes : List (Path × VersionVector) :=
  removes handed ++ handed.filterMap fun r =>
    match rows r.2.operation.path with
    | .gone t => some (r.2.operation.path, t.version)
    | _ => none

/-- `f` is handed over for `p`, and knows of every delete that `p` may have. -/
def Outlives (p : Path) (f : FileEntry) : Prop :=
  (p, f) ∈ upserts handed ∧ ∀ x ∈ deletes rows handed, x.1 = p → x.2 < f.version

instance (p : Path) (f : FileEntry) : Decidable (Outlives rows handed p f) :=
  inferInstanceAs (Decidable (_ ∧ _))

/-- The deletes of each path know of one another, or one of its versions knows of them all;
nothing handed over is for the place of a conflict's loser, those places are paths, and no
two losers have one place. -/
structure Orderly : Prop where
  ordered : ∀ x ∈ deletes rows handed, ∀ y ∈ deletes rows handed, x.1 = y.1 →
    x.2 ≤ y.2 ∨ y.2 ≤ x.2 ∨ ∃ u ∈ upserts handed, Outlives rows handed x.1 u.2
  valid : ∀ x ∈ contested (candidates rows handed), validate (siblingOf x.1 x.2) = .ok ()
  untouched : ∀ x ∈ contested (candidates rows handed), ∀ r ∈ handed, siblingOf x.1 x.2 ≠
    r.2.operation.path
  places : ∀ x ∈ contested (candidates rows handed), ∀ y ∈ contested (candidates rows handed),
    siblingOf x.1 x.2 = siblingOf y.1 y.2 → x.2.version.Same y.2.version

instance : Decidable (Orderly rows handed) :=
  decidable_of_iff (_ ∧ _ ∧ _ ∧ _)
    ⟨fun h => ⟨h.1, h.2.1, h.2.2.1, h.2.2.2⟩, fun h => ⟨h.1, h.2, h.3, h.4⟩⟩

end

variable {p : Path} {f : FileEntry}

section
variable {rows₀ rows : Rows} {handed : List (DeviceId × LogEntry)} {r : DeviceId × LogEntry}

theorem mem_upserts {ops : List (DeviceId × LogEntry)} :
    (p, f) ∈ upserts ops ↔ ∃ r ∈ ops, r.2.operation = .upsert p f := by
  refine List.mem_filterMap.trans (exists_congr fun r => and_congr_right fun _ => ?_)
  cases r.2.operation <;> simp

variable {v : VersionVector}

theorem mem_removes {ops : List (DeviceId × LogEntry)} :
    (p, v) ∈ removes ops ↔ ∃ r ∈ ops, r.2.operation = .remove p v := by
  refine List.mem_filterMap.trans (exists_congr fun r => and_congr_right fun _ => ?_)
  cases r.2.operation <;> simp

theorem mem_candidates_of_upsert (hr : r ∈ handed)
    (h : r.2.operation = .upsert p f) : (p, f) ∈ candidates rows handed :=
  List.mem_append_left _ (mem_upserts.mpr ⟨r, hr, h⟩)

theorem mem_candidates_of_row (hr : r ∈ handed)
    (h : rows r.2.operation.path = .file f) : (r.2.operation.path, f) ∈ candidates rows handed :=
  List.mem_append_right _ (List.mem_filterMap.mpr ⟨r, hr, by rw [h]⟩)

theorem mem_deletes_of_remove (hr : r ∈ handed)
    (h : r.2.operation = .remove p v) : (p, v) ∈ deletes rows handed :=
  List.mem_append_left _ (mem_removes.mpr ⟨r, hr, h⟩)

theorem mem_deletes_of_row (hr : r ∈ handed) {t : Tombstone}
    (h : rows r.2.operation.path = .gone t) :
    (r.2.operation.path, t.version) ∈ deletes rows handed :=
  List.mem_append_right _ (List.mem_filterMap.mpr ⟨r, hr, by rw [h]⟩)

variable {x : Path × FileEntry}

theorem mem_contested {versions : List (Path × FileEntry)} :
    x ∈ contested versions ↔
      x ∈ versions ∧ ∃ y ∈ versions, y.1 = x.1 ∧ y.2.version.Apart x.2.version := by
  rw [contested, List.mem_filter, decide_eq_true_iff]

/-- The row of a path that entries are for is one of those it may have. -/
structure Known (rows₀ : Rows) (handed : List (DeviceId × LogEntry)) (rows : Rows) : Prop where
  file : ∀ r ∈ handed, ∀ f, rows r.2.operation.path = .file f →
    (r.2.operation.path, f) ∈ candidates rows₀ handed
  gone : ∀ r ∈ handed, ∀ t, rows r.2.operation.path = .gone t →
    (r.2.operation.path, t.version) ∈ deletes rows₀ handed

theorem known_start : Known rows₀ handed rows₀ :=
  ⟨fun _ hr _ h => mem_candidates_of_row hr h, fun _ hr _ h => mem_deletes_of_row hr h⟩

/-! ### What lies ahead of a path -/

/-- The row would give way to a delete of version `v`. -/
def Row.YieldsTo (v : VersionVector) : Row → Prop
  | .absent => True
  | .file f => f.version ≤ v
  | .gone t => ¬v ≤ t.version

/-- How far a row is from being live. -/
def Row.stage : Row → ℕ
  | .absent => 2
  | .gone _ => 1
  | .file _ => 0

open Classical in
/-- The deletes of `p` that `row` would give way to. -/
noncomputable def deletesAhead (handed : List (DeviceId × LogEntry)) (p : Path) (row : Row) :
    Finset (DeviceId × LogEntry) :=
  handed.toFinset.filter fun r => ∃ v, r.2.operation = .remove p v ∧ row.YieldsTo v

open Classical in
/-- The versions of `p` that `row` does not know. -/
noncomputable def versionsAhead (handed : List (DeviceId × LogEntry)) (p : Path) (row : Row) :
    Finset (DeviceId × LogEntry) :=
  handed.toFinset.filter fun r => ∃ f, r.2.operation = .upsert p f ∧ ¬f.version ≤ row.version

/-- What lies ahead of `p`: first the deletes, then being live, then the versions. -/
noncomputable def ahead (handed : List (DeviceId × LogEntry)) (p : Path) (row : Row) :
    Finset (DeviceId × LogEntry) ×ₗ ℕ ×ₗ Finset (DeviceId × LogEntry) :=
  toLex (deletesAhead handed p row, toLex (row.stage, versionsAhead handed p row))

/-- The row of `p` gives way to some delete that `p` may have. -/
def Exposed (rows₀ : Rows) (handed : List (DeviceId × LogEntry)) (p : Path) : Row → Prop
  | .file f => ∃ x ∈ deletes rows₀ handed, x.1 = p ∧ f.version ≤ x.2
  | _ => True

open Classical in
/-- What lies ahead of `p` if one of its versions outlives the deletes: first being out of their
reach, then the versions. -/
noncomputable def exposure (rows₀ : Rows) (handed : List (DeviceId × LogEntry)) (p : Path)
    (row : Row) :
    Finset (DeviceId × LogEntry) ×ₗ ℕ ×ₗ Finset (DeviceId × LogEntry) :=
  toLex (∅, toLex (if Exposed rows₀ handed p row then (1, ∅) else (0, versionsAhead handed p row)))

variable {row : Row}

theorem mem_deletesAhead :
    r ∈ deletesAhead handed p row ↔ r ∈ handed ∧ ∃ v, r.2.operation = .remove p v ∧
      row.YieldsTo v := by
  simp only [deletesAhead, Finset.mem_filter, List.mem_toFinset]

theorem mem_versionsAhead :
    r ∈ versionsAhead handed p row ↔
      r ∈ handed ∧ ∃ f, r.2.operation = .upsert p f ∧ ¬f.version ≤ row.version := by
  simp only [versionsAhead, Finset.mem_filter, List.mem_toFinset]

variable {row row' : Row}

theorem deletesAhead_subset
    (h : ∀ s ∈ handed, ∀ v, s.2.operation = .remove p v → row'.YieldsTo v → row.YieldsTo v) :
    deletesAhead handed p row' ⊆ deletesAhead handed p row := by
  intro s hs
  rw [mem_deletesAhead] at hs ⊢
  obtain ⟨hm, v, hop, hy⟩ := hs
  exact ⟨hm, v, hop, h s hm v hop hy⟩

/-- A later stage with no more deletes ahead is progress. -/
theorem ahead_lt_of_stage
    (h : ∀ s ∈ handed, ∀ v, s.2.operation = .remove p v → row'.YieldsTo v → row.YieldsTo v)
    (hst : row'.stage < row.stage) : ahead handed p row' < ahead handed p row :=
  Prod.Lex.toLex_lt_toLex'.mpr ⟨deletesAhead_subset h, fun _ =>
    Prod.Lex.toLex_lt_toLex.mpr (Or.inl hst)⟩

/-- A delete taken is a delete less ahead. -/
theorem ahead_lt_of_delete
    (h : ∀ s ∈ handed, ∀ v, s.2.operation = .remove p v → row'.YieldsTo v → row.YieldsTo v)
    (hr : r ∈ handed) (hop : r.2.operation = .remove p v) (hy : row.YieldsTo v)
    (hn : ¬row'.YieldsTo v) : ahead handed p row' < ahead handed p row := by
  refine Prod.Lex.toLex_lt_toLex.mpr (Or.inl ?_)
  refine (Finset.ssubset_iff_of_subset (deletesAhead_subset h)).mpr
    ⟨r, mem_deletesAhead.mpr ⟨hr, v, hop, hy⟩, fun hm => ?_⟩
  obtain ⟨-, w, hw, hyw⟩ := mem_deletesAhead.mp hm
  rw [hop] at hw
  cases hw
  exact hn hyw

/-- A later version has fewer ahead. -/
theorem versionsAhead_ssubset (hr : r ∈ handed) {f present : FileEntry}
    (hop : r.2.operation = .upsert p f) (hlt : present.version < f.version) :
    versionsAhead handed p (.file f) ⊂ versionsAhead handed p (.file present) := by
  refine (Finset.ssubset_iff_of_subset fun s hs => ?_).mpr
    ⟨r, mem_versionsAhead.mpr ⟨hr, f, hop, hlt.not_ge⟩, fun hm => ?_⟩
  · obtain ⟨hm, g, hg, hng⟩ := mem_versionsAhead.mp hs
    exact mem_versionsAhead.mpr ⟨hm, g, hg, fun hle => hng (le_trans hle hlt.le)⟩
  · obtain ⟨-, g, hg, hng⟩ := mem_versionsAhead.mp hm
    rw [hop] at hg
    cases hg
    exact hng le_rfl

/-- **Taking a version is progress.** -/
theorem ahead_upsert (hr : r ∈ handed) (hop : r.2.operation = .upsert p f)
    (hrow : row = .absent ∨ (∃ t, row = .gone t ∧ ¬f.version ≤ t.version) ∨
      ∃ present, row = .file present ∧ present.version < f.version) :
    ahead handed p (.file f) < ahead handed p row := by
  rcases hrow with rfl | ⟨t, rfl, hn⟩ | ⟨present, rfl, hlt⟩
  · exact ahead_lt_of_stage (fun _ _ _ _ _ => trivial) (by decide : 0 < 2)
  · exact ahead_lt_of_stage (fun _ _ v _ hy hle => hn (le_trans hy hle)) (by decide : 0 < 1)
  · exact Prod.Lex.toLex_lt_toLex'.mpr
      ⟨deletesAhead_subset fun _ _ v _ hy => le_trans hlt.le hy, fun _ =>
        Prod.Lex.toLex_lt_toLex.mpr (Or.inr ⟨rfl, versionsAhead_ssubset hr hop hlt⟩)⟩

/-- **Taking a delete is progress**, if the deletes of the path are ordered. -/
theorem ahead_remove (hr : r ∈ handed) (hop : r.2.operation = .remove p v)
    (hrow : row = .absent ∨ (∃ t, row = .gone t ∧ ¬v ≤ t.version) ∨
      ∃ present, row = .file present ∧ present.version ≤ v)
    (hgone : ∀ t, row = .gone t → t.version ≤ v ∨ v ≤ t.version)
    (hord : ∀ s ∈ handed, ∀ w, s.2.operation = .remove p w → v ≤ w ∨ w ≤ v) {t : Tombstone}
    (ht : t.version = v) : ahead handed p (.gone t) < ahead handed p row := by
  have hself : ¬(Row.gone t).YieldsTo v := fun h => h ht.ge
  rcases hrow with rfl | ⟨s, rfl, hn⟩ | ⟨present, rfl, hle⟩
  · exact ahead_lt_of_stage (fun _ _ _ _ _ => trivial) (by decide : 1 < 2)
  · have hsv : s.version ≤ v := (hgone s rfl).resolve_right hn
    exact ahead_lt_of_delete (fun _ _ w _ hy hws => hy (ht ▸ hws.trans hsv)) hr hop hn hself
  · refine ahead_lt_of_delete (fun s hs w hw hy => ?_) hr hop hle hself
    rcases hord s hs w hw with hvw | hwv
    · exact le_trans hle hvw
    · exact absurd (ht ▸ hwv) hy

theorem exposure_lt (h : Exposed rows₀ handed p row)
    (h' : ¬Exposed rows₀ handed p row') :
    exposure rows₀ handed p row' < exposure rows₀ handed p row := by
  unfold exposure
  rw [if_pos h, if_neg h']
  exact Prod.Lex.toLex_lt_toLex.mpr
    (Or.inr ⟨rfl, Prod.Lex.toLex_lt_toLex.mpr (Or.inl Nat.zero_lt_one)⟩)

theorem exposure_eq (h : Exposed rows₀ handed p row)
    (h' : Exposed rows₀ handed p row') :
    exposure rows₀ handed p row' = exposure rows₀ handed p row := by
  unfold exposure
  rw [if_pos h, if_pos h']

theorem exposed_of_removed (hmem : (p, v) ∈ deletes rows₀ handed)
    (hrow : row = .absent ∨ (∃ t, row = .gone t ∧ ¬v ≤ t.version) ∨
      ∃ present, row = .file present ∧ present.version ≤ v) : Exposed rows₀ handed p row := by
  rcases hrow with rfl | ⟨t, rfl, -⟩ | ⟨present, rfl, hle⟩
  · trivial
  · trivial
  · exact ⟨_, hmem, rfl, hle⟩

/-- A version taken is progress, or leaves the path within the deletes' reach. -/
theorem exposure_upsert (hr : r ∈ handed) (hop : r.2.operation = .upsert p f)
    (hrow : row = .absent ∨ (∃ t, row = .gone t ∧ ¬f.version ≤ t.version) ∨
      ∃ present, row = .file present ∧ present.version < f.version) :
    exposure rows₀ handed p (.file f) < exposure rows₀ handed p row ∨
      Exposed rows₀ handed p row ∧ Exposed rows₀ handed p (.file f) := by
  by_cases h' : Exposed rows₀ handed p (.file f)
  · -- what gives way to a delete that knows of `f` did so before
    refine Or.inr ⟨?_, h'⟩
    rcases hrow with rfl | ⟨t, rfl, -⟩ | ⟨present, rfl, hlt⟩
    · trivial
    · trivial
    · obtain ⟨x, hx, hp, hle⟩ := h'
      exact ⟨x, hx, hp, hlt.le.trans hle⟩
  · left
    by_cases h : Exposed rows₀ handed p row
    · exact exposure_lt h h'
    · rcases hrow with rfl | ⟨t, rfl, -⟩ | ⟨present, rfl, hlt⟩
      · exact absurd trivial h
      · exact absurd trivial h
      · unfold exposure
        rw [if_neg h, if_neg h']
        exact Prod.Lex.toLex_lt_toLex.mpr (Or.inr ⟨rfl, Prod.Lex.toLex_lt_toLex.mpr
          (Or.inr ⟨rfl, versionsAhead_ssubset hr hop hlt⟩)⟩)

/-! ### Progress of all the rows -/

open Classical in
/-- What is left to do at `p`. -/
noncomputable def left (rows₀ : Rows) (handed : List (DeviceId × LogEntry)) (p : Path) (row : Row) :
    Finset (DeviceId × LogEntry) ×ₗ ℕ ×ₗ Finset (DeviceId × LogEntry) :=
  if ∃ f, Outlives rows₀ handed p f then exposure rows₀ handed p row else ahead handed p row

/-- A version is to outlive the deletes of `p`, which is still within their reach. -/
def Pending (rows₀ : Rows) (handed : List (DeviceId × LogEntry)) (rows : Rows) (p : Path) : Prop :=
  (∃ f, Outlives rows₀ handed p f) ∧ Exposed rows₀ handed p (rows p)

/-- The loser's place has its version. -/
def InPlace (rows : Rows) (x : Path × FileEntry) : Prop :=
  ∃ g, rows (siblingOf x.1 x.2) = .file g ∧ g.version.Same x.2.version

open Classical in
/-- The contested versions that are not in their places. -/
noncomputable def unplaced (rows₀ : Rows) (handed : List (DeviceId × LogEntry)) (rows : Rows) :
    Finset (Path × FileEntry) :=
  (contested (candidates rows₀ handed)).toFinset.filter fun x => ¬InPlace rows x

/-- What is left to do: first the places, then the paths. -/
noncomputable def progress (rows₀ : Rows) (handed : List (DeviceId × LogEntry)) (rows : Rows) :
    Finset (Path × FileEntry) ×ₗ ({r // r ∈ handed} →
      Finset (DeviceId × LogEntry) ×ₗ ℕ ×ₗ Finset (DeviceId × LogEntry)) :=
  toLex (unplaced rows₀ handed rows,
    fun r => left rows₀ handed r.1.2.operation.path (rows r.1.2.operation.path))

theorem mem_unplaced :
    x ∈ unplaced rows₀ handed rows ↔ x ∈ contested (candidates rows₀ handed) ∧ ¬InPlace rows x := by
  simp only [unplaced, Finset.mem_filter, List.mem_toFinset]

/-- Nothing put at the path of an entry changes which losers are in their places. -/
theorem unplaced_update (ho : Orderly rows₀ handed) (hr : r ∈ handed)
    (hp : r.2.operation.path = p) (row : Row) :
    unplaced rows₀ handed (Function.update rows p row) = unplaced rows₀ handed rows := by
  ext x
  simp only [mem_unplaced]
  refine and_congr_right fun hx => not_congr ?_
  unfold InPlace
  rw [Function.update_of_ne (hp ▸ ho.untouched x hx r hr)]

/-- A row that leaves less to do, put at the path of an entry, is progress. -/
theorem progress_update (ho : Orderly rows₀ handed) (hr : r ∈ handed)
    (hp : r.2.operation.path = p) (hlt : left rows₀ handed p row < left rows₀ handed p (rows p)) :
    progress rows₀ handed (Function.update rows p row) < progress rows₀ handed rows := by
  refine Prod.Lex.toLex_lt_toLex.mpr
    (Or.inr ⟨unplaced_update ho hr hp row, Pi.lt_def.mpr ⟨fun s => ?_, ⟨r, hr⟩, ?_⟩⟩)
  · dsimp only
    by_cases hs : s.1.2.operation.path = p
    · rw [hs, Function.update_self]
      exact hlt.le
    · rw [Function.update_of_ne hs]
  · dsimp only
    rw [hp, Function.update_self]
    exact hlt

theorem progress_update_eq (ho : Orderly rows₀ handed) (hr : r ∈ handed)
    (hp : r.2.operation.path = p) (heq : left rows₀ handed p row = left rows₀ handed p (rows p)) :
    progress rows₀ handed (Function.update rows p row) = progress rows₀ handed rows := by
  unfold progress
  rw [unplaced_update ho hr hp row]
  congr 2
  funext s
  by_cases hs : s.1.2.operation.path = p
  · rw [hs, Function.update_self, heq]
  · rw [Function.update_of_ne hs]

/-- Without progress the same paths are pending. -/
theorem Pending.of_progress {rows' : Rows} (h : Pending rows₀ handed rows p)
    (heq : progress rows₀ handed rows' = progress rows₀ handed rows) :
    Pending rows₀ handed rows' p := by
  obtain ⟨⟨f, hf⟩, hexposed⟩ := h
  refine ⟨⟨f, hf⟩, ?_⟩
  obtain ⟨r, hr, hop⟩ := mem_upserts.mp hf.1
  have hp : r.2.operation.path = p := by rw [hop]; rfl
  have hleft := congrFun (congrArg (fun x => (ofLex x).2) heq) ⟨r, hr⟩
  have hout : ∃ f, Outlives rows₀ handed r.2.operation.path f := ⟨f, hp.symm ▸ hf⟩
  simp only [progress, ofLex_toLex, left, if_pos hout] at hleft
  rw [hp] at hleft
  by_contra h'
  exact (exposure_lt hexposed h').ne hleft

/-- The version that is to outlive the deletes of a pending path is taken when it is handed over. -/
theorem Pending.unsettled (hk : Known rows₀ handed rows) (hr : r ∈ handed)
    (h : Pending rows₀ handed rows p) (hop : r.2.operation = .upsert p f)
    (hf : Outlives rows₀ handed p f) :
    ¬Settled r.1 rows r.2 := by
  have hp : r.2.operation.path = p := by rw [hop]; rfl
  have hexposed := h.2
  unfold Settled merge
  rw [hop]
  dsimp only [mergeUpsert]
  cases hrow : rows p with
  | absent => exact id
  | gone t =>
    have hlt := hf.2 _ (hk.gone r hr t (hp ▸ hrow)) hp
    dsimp only
    rw [if_neg hlt.not_ge]
    exact id
  | file g =>
    rw [hrow] at hexposed
    obtain ⟨x, hx, hxp, hle⟩ := hexposed
    have hlt := hle.trans_lt (hf.2 x hx hxp)
    dsimp only
    rw [if_pos hlt.le, if_neg hlt.not_ge]
    exact id

/-- A loser put in its place is progress, whatever becomes of the paths of entries. -/
theorem progress_place (ho : Orderly rows₀ handed)
    (hx : x ∈ contested (candidates rows₀ handed)) (hn : ¬InPlace rows x) {rows' : Rows}
    (hput : rows' (siblingOf x.1 x.2) = .file x.2)
    (hkeep : ∀ q, q ≠ siblingOf x.1 x.2 → (∀ r ∈ handed, r.2.operation.path ≠ q) → rows' q = rows q) :
    progress rows₀ handed rows' < progress rows₀ handed rows := by
  refine Prod.Lex.toLex_lt_toLex.mpr (Or.inl ?_)
  refine (Finset.ssubset_iff_of_subset fun y hy => ?_).mpr
    ⟨x, mem_unplaced.mpr ⟨hx, hn⟩, fun hm => ?_⟩
  · obtain ⟨hc, hny⟩ := mem_unplaced.mp hy
    refine mem_unplaced.mpr ⟨hc, fun hin => hny ?_⟩
    by_cases hs : siblingOf y.1 y.2 = siblingOf x.1 x.2
    · -- one place: what is put there has the version of both
      exact ⟨x.2, by rw [hs, hput], ho.places x hx y hc hs.symm⟩
    · unfold InPlace
      rwa [hkeep _ hs fun r hr h => ho.untouched y hc r hr h.symm]
  · exact (mem_unplaced.mp hm).2 ⟨x.2, hput, le_rfl, le_rfl⟩

/-- The loser of a conflict is contested. -/
theorem contested_loser (hk : Known rows₀ handed rows) (hr : r ∈ handed) {path : Path}
    {remote present : FileEntry} (hop : r.2.operation = .upsert path remote)
    (hrow : rows path = .file present) (hapart : present.version.Apart remote.version) :
    (path, loserOf present remote) ∈ contested (candidates rows₀ handed) := by
  have hp : r.2.operation.path = path := by rw [hop]; rfl
  have hremote : (path, remote) ∈ candidates rows₀ handed := mem_candidates_of_upsert hr hop
  have hpresent := hk.file r hr present (hp ▸ hrow)
  rw [hp] at hpresent
  unfold loserOf
  split_ifs
  · exact mem_contested.mpr ⟨hpresent, _, hremote, rfl, hapart.symm⟩
  · exact mem_contested.mpr ⟨hremote, _, hpresent, rfl, hapart⟩

/-- Where no version is to outlive them, the deletes of a path know of one another. -/
theorem Orderly.total (ho : Orderly rows₀ handed) (hout : ¬∃ f, Outlives rows₀ handed p f)
    {w w' : VersionVector} (hw : (p, w) ∈ deletes rows₀ handed)
    (hw' : (p, w') ∈ deletes rows₀ handed) : w ≤ w' ∨ w' ≤ w :=
  (ho.ordered _ hw _ hw' rfl).imp_right fun h => h.resolve_right fun ⟨_, _, hu⟩ => hout ⟨_, hu⟩

/-- **Every merge that is not quiet makes progress**, or is one of a path that a version is still to
put out of the deletes' reach, and not of that version. -/
theorem progress_merge (ho : Orderly rows₀ handed) (hk : Known rows₀ handed rows)
    (hr : r ∈ handed) (hs : ¬Settled r.1 rows r.2) :
    progress rows₀ handed (merge r.1 rows r.2).1 < progress rows₀ handed rows ∨
      progress rows₀ handed (merge r.1 rows r.2).1 = progress rows₀ handed rows ∧
        Pending rows₀ handed rows r.2.operation.path ∧
        ∀ p f, r.2.operation = .upsert p f → ¬Outlives rows₀ handed p f := by
  have hm := merge_merged r.1 rows r.2
  unfold Settled at hs
  generalize (merge r.1 rows r.2).1 = rows' at hm ⊢
  generalize (merge r.1 rows r.2).2 = applied at hm hs
  cases hm with
  | known path remote present a hop hrow hle ha =>
    exact absurd (by rcases ha with rfl | rfl <;> trivial) hs
  | deadAlready path v t a hop hrow hle ha =>
    exact absurd (by rcases ha with rfl | rfl <;> trivial) hs
  | dead | placed | lost => exact absurd trivial hs
  | adopted path remote hop hrow =>
    have hp : r.2.operation.path = path := by rw [hop]; rfl
    by_cases hout : ∃ f, Outlives rows₀ handed path f
    · obtain hlt | ⟨h, h'⟩ : exposure rows₀ handed path (.file remote) <
          exposure rows₀ handed path (rows path) ∨ _ := exposure_upsert hr hop hrow
      · exact Or.inl (progress_update ho hr hp (by simpa only [left, if_pos hout] using hlt))
      · refine Or.inr ⟨progress_update_eq ho hr hp ?_, hp ▸ ⟨hout, h⟩, fun p f hop' hf => ?_⟩
        · simpa only [left, if_pos hout] using exposure_eq h h'
        · rw [hop] at hop'
          cases hop'
          obtain ⟨x, hx, hxp, hle⟩ := h'
          exact (hf.2 x hx hxp).not_ge hle
    · refine Or.inl (progress_update ho hr hp ?_)
      simpa only [left, if_neg hout] using ahead_upsert hr hop hrow
  | removed path v hop hrow =>
    have hp : r.2.operation.path = path := by rw [hop]; rfl
    have hmem : (path, v) ∈ deletes rows₀ handed := mem_deletes_of_remove hr hop
    by_cases hout : ∃ f, Outlives rows₀ handed path f
    · have h : Exposed rows₀ handed path (rows path) := exposed_of_removed hmem hrow
      refine Or.inr ⟨progress_update_eq ho hr hp ?_, hp ▸ ⟨hout, h⟩, fun p f hop' => ?_⟩
      · have h' : Exposed rows₀ handed path (.gone (r.2.tombstone r.1)) := trivial
        simpa only [left, if_pos hout] using exposure_eq h h'
      · rw [hop] at hop'
        cases hop'
    · refine Or.inl (progress_update ho hr hp ?_)
      simp only [left, if_neg hout]
      refine ahead_remove hr hop hrow (fun t ht => ?_)
        (fun s hs w hw => ho.total hout hmem (mem_deletes_of_remove hs hw)) ?_
      · have hg := hk.gone r hr t (hp ▸ ht)
        rw [hp] at hg
        exact ho.total hout hg hmem
      · simp [LogEntry.tombstone, hop, Operation.version]
  | conflicted path remote present hop hrow hapart hplaced =>
    have hp : r.2.operation.path = path := by rw [hop]; rfl
    exact Or.inl (progress_place ho (contested_loser hk hr hop hrow hapart) hplaced (place_sibling ..)
      fun q hq hun => place_of_ne (fun h => hun r hr (hp.trans h.symm)) hq)

/-- **A merge leaves rows the paths may have.** -/
theorem known_merge (ho : Orderly rows₀ handed) (hk : Known rows₀ handed rows) (hr : r ∈ handed) :
    Known rows₀ handed (merge r.1 rows r.2).1 := by
  -- what the merge leaves at the path of an entry: the row there, or the row of `r`
  have key : ∀ s ∈ handed, (merge r.1 rows r.2).1 s.2.operation.path = rows s.2.operation.path ∨
      s.2.operation.path = r.2.operation.path ∧
        (merge r.1 rows r.2).1 s.2.operation.path = r.2.row r.1 := by
    intro s hs
    have hm := merge_merged r.1 rows r.2
    generalize (merge r.1 rows r.2).1 = rows' at hm ⊢
    generalize (merge r.1 rows r.2).2 = applied at hm
    cases hm with
    | known | dead | placed | lost | deadAlready => exact Or.inl rfl
    | adopted path remote hop hrow =>
      by_cases hq : s.2.operation.path = path
      · rw [hq, Function.update_self]
        exact Or.inr ⟨by rw [hop]; rfl, (LogEntry.row_upsert hop r.1).symm⟩
      · exact Or.inl (Function.update_of_ne hq _ _)
    | removed path v hop hrow =>
      by_cases hq : s.2.operation.path = path
      · rw [hq, Function.update_self]
        exact Or.inr ⟨by rw [hop]; rfl, (LogEntry.row_remove hop r.1).symm⟩
      · exact Or.inl (Function.update_of_ne hq _ _)
    | conflicted path remote present hop hrow hapart hplaced =>
      by_cases hq : s.2.operation.path = path
      · rw [hq]
        refine (place_path rows path present remote).symm.imp_right fun h => ⟨by rw [hop]; rfl, ?_⟩
        rw [h, LogEntry.row_upsert hop]
      · exact Or.inl (place_of_ne hq
          (ho.untouched _ (contested_loser hk hr hop hrow hapart) s hs).symm)
  refine ⟨fun s hs f hf => ?_, fun s hs t ht => ?_⟩
  · rcases key s hs with h | ⟨hp, h⟩
    · exact hk.file s hs f (h ▸ hf)
    · rw [hp]
      exact mem_candidates_of_upsert hr (LogEntry.operation_of_row_file (h ▸ hf))
  · rcases key s hs with h | ⟨hp, h⟩
    · exact hk.gone s hs t (h ▸ ht)
    · rw [hp]
      exact mem_deletes_of_remove hr (LogEntry.operation_of_row_gone (h ▸ ht))

end

/-! ### Rounds -/

variable {K : Crypto}

/-- Every device's segments are a chain, they open, and what is in them is for paths. -/
structure ValidChains (st : Store K) (segments : List (SegmentEnvelope K)) : Prop where
  chained : ∀ e ∈ segments, validateChain (segments.filter fun f => f.device = e.device) = .ok ()
  opens : ∀ e ∈ segments, st.openSegment e = .ok e.body
  paths : ∀ r ∈ handedOver st segments, validate r.2.operation.path = .ok ()

/-- Every chunk of every version handed over can be had. -/
def AllFetchable (st : Store K) (segments : List (SegmentEnvelope K)) (source : ChunkSource) : Prop :=
  ∀ r ∈ handedOver st segments, ∀ p f, r.2.operation = .upsert p f →
    Fetchable K st.chunker.maxSize source st.owner f.chunks

/-- The store after so many rounds over the same segments. -/
def rounds (st : Store K) (segments : List (SegmentEnvelope K)) (source : ℕ → ChunkSource)
    (now : ℕ → ℕ) : ℕ → Store K
  | 0 => st
  | n + 1 => (applySegments (rounds st segments source now n) segments (source n) (now n)).1

theorem ValidChains.no_fail {st : Store K} {segments : List (SegmentEnvelope K)}
    (h : ValidChains st segments) (error : SyncError) :
    .fail error ∉ tasks st .othersOnly segments := by
  intro ht
  obtain ⟨⟨d, chain⟩, hr, ht⟩ := List.mem_flatMap.mp ht
  have hchain := mem_byDevice hr
  unfold chainTasks at ht
  dsimp only at ht
  split_ifs at ht
  · cases ht
  · cases hv : validateChain chain with
    | ok u =>
      rw [hv] at ht
      obtain ⟨envelope, hm, he⟩ := List.mem_flatMap.mp ht
      rw [hchain] at hm
      simp [envelopeTasks, h.opens envelope (List.mem_filter.mp hm).1] at he
    | error error =>
      -- an empty chain is no error, and any other is the chain of its first segment
      cases chain with
      | nil => cases hv
      | cons e rest =>
        have hm : e ∈ segments.filter fun f => f.device = d := hchain ▸ List.mem_cons_self
        obtain ⟨hm, hd⟩ := List.mem_filter.mp hm
        have hok := h.chained e hm
        rw [of_decide_eq_true hd, ← hchain, hv] at hok
        cases hok
  · simp at ht

section
variable {st : Store K} {segments : List (SegmentEnvelope K)} (hv : ValidChains st segments)
  (hb : st.budget = none) (ho : Orderly st.row (handedOver st segments))

/-- A store on the way: the node it was, with rows its paths may have. -/
structure Underway (st : Store K) (segments : List (SegmentEnvelope K)) (st' : Store K) : Prop where
  node : SameNode st st'
  known : Known st.row (handedOver st segments) st'.row

/-- A walk over `ts` makes progress, or it makes none, some path is pending and `ts` hands over no
version that a pending path waits for. -/
def Advances (st : Store K) (segments : List (SegmentEnvelope K)) (ts : List Task)
    (st₁ st₂ : Store K) : Prop :=
  progress st.row (handedOver st segments) st₂.row < progress st.row (handedOver st segments) st₁.row ∨
    progress st.row (handedOver st segments) st₂.row =
      progress st.row (handedOver st segments) st₁.row ∧
      (∃ p, Pending st.row (handedOver st segments) st₁.row p) ∧
      ∀ device owner e p f, .entry device owner e ∈ ts → e.operation = .upsert p f →
        Pending st.row (handedOver st segments) st₁.row p →
          ¬Outlives st.row (handedOver st segments) p f

namespace Advances
variable {ts : List Task} {task : Task} {st₁ st₂ st₃ : Store K}

/-- A settled entry is not the one that a pending path waits for. -/
theorem not_outlives (hu : Underway st segments st₁)
    (hp : Pending st.row (handedOver st segments) st₁.row p) {device : DeviceId} {owner : UserId}
    {e : LogEntry}
    (ht : .entry device owner e ∈ tasks st .othersOnly segments) (hs : Settled device st₁.row e)
    (hop : e.operation = .upsert p f) : ¬Outlives st.row (handedOver st segments) p f := fun hf =>
  hp.unsettled hu.known (mem_handedOver ht).1 hop hf hs

theorem cons_settled (h : Advances st segments ts st₁ st₂) (hu : Underway st segments st₁)
    (ht : task ∈ tasks st .othersOnly segments)
    (hs : ∀ device owner e, task = .entry device owner e → Settled device st₁.row e) :
    Advances st segments (task :: ts) st₁ st₂ := by
  refine h.imp_right fun ⟨heq, hsome, hnot⟩ => ⟨heq, hsome, fun device owner e p f hmem hop hp => ?_⟩
  rcases List.mem_cons.mp hmem with rfl | hmem
  · exact not_outlives hu hp ht (hs device owner e rfl) hop
  · exact hnot device owner e p f hmem hop hp

theorem append_settled (h : Advances st segments [task] st₁ st₂) (hu : Underway st segments st₂)
    (hts : ∀ task ∈ ts, task ∈ tasks st .othersOnly segments)
    (hs : ∀ device owner e, .entry device owner e ∈ ts → Settled device st₂.row e) :
    Advances st segments (task :: ts) st₁ st₂ := by
  refine h.imp_right fun ⟨heq, hsome, hnot⟩ => ⟨heq, hsome, fun device owner e p f hmem hop hp => ?_⟩
  rcases List.mem_cons.mp hmem with rfl | hmem
  · exact hnot device owner e p f (List.mem_singleton_self _) hop hp
  · exact not_outlives hu (hp.of_progress heq) (hts _ hmem) (hs device owner e hmem) hop

theorem append (h : Advances st segments [task] st₁ st₂) (h' : Advances st segments ts st₂ st₃) :
    Advances st segments (task :: ts) st₁ st₃ := by
  rcases h with hlt | ⟨heq, hsome, hnot⟩
  · exact Or.inl (h'.elim (·.trans hlt) fun h' => h'.1.trans_lt hlt)
  rcases h' with hlt | ⟨heq', -, hnot'⟩
  · exact Or.inl (heq ▸ hlt)
  · refine Or.inr ⟨heq'.trans heq, hsome, fun device owner e p f hmem hop hp => ?_⟩
    rcases List.mem_cons.mp hmem with rfl | hmem
    · exact hnot device owner e p f (List.mem_singleton_self _) hop hp
    · exact hnot' device owner e p f hmem hop (hp.of_progress heq)

end Advances

include hv hb ho

variable {source : ChunkSource}

/-- Nothing stands in the way of an entry. -/
theorem Underway.unhindered {st' : Store K} (hu : Underway st segments st')
    (hf : AllFetchable st segments source) {device : DeviceId} {e : LogEntry}
    (hr : (device, e) ∈ handedOver st segments) : Unhindered source st' st.owner e.operation := by
  have hpath := hv.paths _ hr
  cases hop : e.operation with
  | remove path v =>
    rw [show e.operation.path = path by rw [hop]; rfl] at hpath
    exact hpath
  | upsert path remote =>
    rw [show e.operation.path = path by rw [hop]; rfl] at hpath
    refine ⟨hpath, ⟨hu.node.budget.trans hb, ?_⟩, fun present hrow hapart => ?_⟩
    · rw [hu.node.chunker]
      exact hf _ hr path remote hop
    · exact ho.valid _ (contested_loser hu.known hr hop hrow hapart)

/-- One task: a settled entry changes nothing, any other makes progress or is of a pending path. -/
theorem stepTask_settles (hf : AllFetchable st segments source) (now : ℕ)
    {a : Applying K} (hu : Underway st segments a.store) {task : Task}
    (ht : task ∈ tasks st .othersOnly segments) :
    ∃ a', stepTask source now a task = (a', none) ∧ Underway st segments a'.store ∧
      ((a'.store = a.store ∧ a'.report.busy = a.report.busy ∧
          ∀ device owner e, task = .entry device owner e → Settled device a.store.row e) ∨
        (∃ device owner e, task = .entry device owner e ∧ ¬Settled device a.store.row e) ∧
          Advances st segments [task] a.store a'.store) := by
  cases task with
  | fail error => exact absurd ht (hv.no_fail error)
  | unrostered => exact ⟨_, rfl, hu, Or.inl ⟨rfl, rfl, fun _ _ _ h => by cases h⟩⟩
  | entry device owner e =>
    obtain ⟨hr, rfl⟩ := mem_handedOver ht
    have hm := applyEntry_merges source now a.store a.calls device e st.owner
    rcases hm.rows with ⟨hrow, happ, hquiet⟩ | ⟨-, -, hbl⟩
    swap
    · exact absurd (hu.unhindered hv hb ho hf hr) hbl
    have hnode := hm.node
    simp only [stepTask, stepEntry]
    rcases hres : applyEntry source now a.store a.calls device e st.owner with ⟨st₁, n, result⟩
    rw [hres] at hrow happ hquiet hnode
    dsimp only at hrow happ hquiet hnode
    subst happ
    refine ⟨_, rfl, ⟨hu.node.trans hnode, hrow ▸ known_merge ho hu.known hr⟩, ?_⟩
    by_cases hs : Settled device a.store.row e
    · refine Or.inl ⟨hquiet hs, a.report.busy_record_quiet hs, fun _ _ _ h => ?_⟩
      cases h
      exact hs
    · refine Or.inr ⟨⟨device, st.owner, e, rfl, hs⟩, ?_⟩
      rcases progress_merge ho hu.known hr hs with hlt | ⟨heq, hpending, hnot⟩
      · exact Or.inl (hrow ▸ hlt)
      · refine Or.inr ⟨hrow ▸ heq, ⟨_, hpending⟩, fun device' owner' e' p f hmem hop _ => ?_⟩
        cases List.mem_singleton.mp hmem
        exact hnot p f hop

/-- A walk over some of the tasks: all settled, or it advances. -/
theorem walk_settles (hf : AllFetchable st segments source) (now : ℕ) :
    ∀ (ts : List Task) {a : Applying K}, (∀ task ∈ ts, task ∈ tasks st .othersOnly segments) →
      Underway st segments a.store →
      ∃ a', walk (stepTask source now) a ts = (a', none) ∧ Underway st segments a'.store ∧
        ((a'.store = a.store ∧ a'.report.busy = a.report.busy ∧
            ∀ device owner e, .entry device owner e ∈ ts → Settled device a.store.row e) ∨
          (∃ device owner e, .entry device owner e ∈ ts ∧ ¬Settled device a.store.row e) ∧
            Advances st segments ts a.store a'.store)
  | [], a, _, hu => ⟨a, rfl, hu, Or.inl ⟨rfl, rfl, fun _ _ _ h => by cases h⟩⟩
  | task :: ts, a, hts, hu => by
    obtain ⟨a₁, hstep, hu₁, hd₁⟩ := stepTask_settles hv hb ho hf now hu (hts task List.mem_cons_self)
    obtain ⟨a₂, hwalk, hu₂, hd₂⟩ := walk_settles hf now ts
      (fun t ht => hts t (List.mem_cons_of_mem _ ht)) hu₁
    refine ⟨a₂, (walk_cons_ok hstep ts).trans hwalk, hu₂, ?_⟩
    rcases hd₁ with ⟨hs₁, hb₁, hset₁⟩ | ⟨⟨device, owner, e, rfl, hn⟩, hadv₁⟩
    · rcases hd₂ with ⟨hs₂, hb₂, hset₂⟩ | ⟨⟨device, owner, e, he, hn⟩, hadv₂⟩
      · refine Or.inl ⟨hs₂.trans hs₁, hb₂.trans hb₁, fun device owner e he => ?_⟩
        rcases List.mem_cons.mp he with heq | he
        · exact hset₁ device owner e heq.symm
        · exact hs₁ ▸ hset₂ device owner e he
      · rw [hs₁] at hn hadv₂
        refine Or.inr
          ⟨⟨device, owner, e, List.mem_cons_of_mem _ he, hn⟩, hadv₂.cons_settled hu ?_ hset₁⟩
        exact hts task List.mem_cons_self
    · refine Or.inr ⟨⟨device, owner, e, List.mem_cons_self, hn⟩, ?_⟩
      rcases hd₂ with ⟨hs₂, -, hset₂⟩ | ⟨-, hadv₂⟩
      · rw [hs₂]
        exact hadv₁.append_settled hu₁ (fun t ht => hts t (List.mem_cons_of_mem _ ht)) hset₂
      · exact hadv₁.append hadv₂

/-- A round: with every entry settled it changes and reports nothing, and otherwise it
makes progress. -/
theorem round_settles (hf : AllFetchable st segments source) (now : ℕ)
    {st' : Store K} (hu : Underway st segments st') :
    ∃ st'' report outcomes, applySegments st' segments source now = (st'', .ok (report, outcomes)) ∧
      Underway st segments st'' ∧
      ((st'' = st' ∧ report.changedAnything = false ∧
          ∀ device owner e, .entry device owner e ∈ tasks st .othersOnly segments →
            Settled device st'.row e) ∨
        progress st.row (handedOver st segments) st''.row <
          progress st.row (handedOver st segments) st'.row ∧
        ∃ device owner e, .entry device owner e ∈ tasks st .othersOnly segments ∧
          ¬Settled device st'.row e) := by
  obtain ⟨a, hw, hu', hd⟩ := walk_settles hv hb ho hf now (tasks st .othersOnly segments)
    (a := ⟨st', 0, .new, []⟩) (fun _ => id) hu
  refine ⟨a.store, a.report, a.outcomes, ?_, hu', ?_⟩
  · rw [applySegments, applyReplaying_eq_walk, tasks_of_sameNode hu.node, hw]
  · rcases hd with ⟨hs, hbusy, hset⟩ | ⟨hn, hlt | ⟨-, ⟨p, hp⟩, hnot⟩⟩
    · exact Or.inl ⟨hs, (SyncReport.busy_eq_zero.mp hbusy).1, hset⟩
    · exact Or.inr ⟨hlt, hn⟩
    · -- the version that outlives the deletes is handed over in every round
      obtain ⟨f, hf⟩ := hp.1
      obtain ⟨⟨device, e⟩, hr, hop⟩ := mem_upserts.mp hf.1
      obtain ⟨task, htask, hhanded⟩ := List.mem_filterMap.mp hr
      cases task with
      | entry device' owner e' =>
        cases hhanded
        exact absurd hf (hnot device owner e p f htask hop hp)
      | fail error => cases hhanded
      | unrostered => cases hhanded

/-- **Rounds come to rest.** Over valid chains, with every chunk at hand, no limit, and
nothing in the entries to set deletes or losers against each other, some round and all
after it report no change and leave the store as it is. -/
theorem settles {source : ℕ → ChunkSource} (hf : ∀ n, AllFetchable st segments (source n))
    (now : ℕ → ℕ) :
    ∃ n, ∀ m ≥ n, rounds st segments source now m = rounds st segments source now n ∧
      ∃ report outcomes,
        (applySegments (rounds st segments source now m) segments (source m) (now m)).2 =
          .ok (report, outcomes) ∧ report.changedAnything = false := by
  have hu : ∀ n, Underway st segments (rounds st segments source now n) := by
    intro n
    induction n with
    | zero => exact ⟨.rfl, known_start⟩
    | succ n ih =>
      obtain ⟨st'', _, _, h, hu', -⟩ := round_settles hv hb ho (hf n) (now n) ih
      show Underway st segments (applySegments _ _ _ _).1
      rw [h]
      exact hu'
  -- what is left to do cannot shrink for ever
  obtain ⟨n, hn⟩ := WellFounded.not_rel_apply_succ (r := (· < ·)) fun n =>
    progress st.row (handedOver st segments) (rounds st segments source now n).row
  have hset : ∀ device owner e, .entry device owner e ∈ tasks st .othersOnly segments →
      Settled device (rounds st segments source now n).row e := by
    obtain ⟨st'', _, _, h, -, ⟨-, -, hset⟩ | ⟨hlt, -⟩⟩ := round_settles hv hb ho (hf n) (now n) (hu n)
    · exact hset
    · refine absurd ?_ hn
      show progress _ _ (applySegments _ _ _ _).1.row < _
      rwa [h]
  -- and once every entry is settled, nothing does anything
  have hround : ∀ m, rounds st segments source now m = rounds st segments source now n →
      rounds st segments source now (m + 1) = rounds st segments source now n ∧
      ∃ report outcomes,
        (applySegments (rounds st segments source now m) segments (source m) (now m)).2 =
          .ok (report, outcomes) ∧ report.changedAnything = false := by
    intro m hm
    obtain ⟨st'', report, outcomes, h, -, ⟨hs, hq, -⟩ | ⟨-, device, owner, e, he, hns⟩⟩ :=
      round_settles hv hb ho (hf m) (now m) (hu m)
    · refine ⟨?_, report, outcomes, by rw [h], hq⟩
      show (applySegments _ _ _ _).1 = _
      rw [h]
      exact hs.trans hm
    · rw [hm] at hns
      exact absurd (hset device owner e he) hns
  refine ⟨n, fun m hm => ?_⟩
  have hsame : rounds st segments source now m = rounds st segments source now n := by
    induction m, hm using Nat.le_induction with
    | base => rfl
    | succ m _ ih => exact (hround m ih).1
  exact ⟨hsame, (hround m hsame).2⟩

end

/-- One-byte chunks can be had from the source that has them all. -/
theorem fetchable_oneByteSource {maxSize : ℕ} (hm : 1 ≤ maxSize) (owner : UserId)
    {chunks : List ChunkId} (h : chunks.all (fun c => digitsId [UInt8.ofNat (c.val - 1)] = c) = true) :
    Fetchable symbolic maxSize oneByteSource owner chunks :=
  fun c hc _ => ⟨_, _, rfl, hm, rfl, of_decide_eq_true (List.all_eq_true.mp h c hc)⟩

/-- Two devices write one path apart, and a third is to apply what they publish. -/
def apartWrites : Swarm symbolic :=
  (Swarm.start 7 fun _ => fourBytes).run
    [.write 1 "p".toList [.data [1]] 5, .flush 1 11, .write (2 ^ 255) "p".toList [.data [2]] 5,
      .flush (2 ^ 255) 12]

theorem settles_apartWrites :
    let segments := apartWrites.picked [(1, 0), (2 ^ 255, 0)]
    ∃ n, ∀ m ≥ n,
      rounds (apartWrites 3) segments (fun _ => oneByteSource) id m =
        rounds (apartWrites 3) segments (fun _ => oneByteSource) id n := by
  intro segments
  have hchunks : ∀ x ∈ candidates (apartWrites 3).row (handedOver (apartWrites 3) segments),
      x.2.chunks.all (fun c => digitsId [UInt8.ofNat (c.val - 1)] = c) = true := by
    decide +kernel
  have hf : AllFetchable (apartWrites 3) segments oneByteSource := fun r hr p f hop =>
    fetchable_oneByteSource (by decide +kernel) _ (hchunks _ (mem_candidates_of_upsert hr hop))
  obtain ⟨n, hn⟩ := settles (K := symbolic)
    ⟨by decide +kernel, by decide +kernel, by decide +kernel⟩ (by decide +kernel) (by decide +kernel)
    (fun _ => hf) id
  exact ⟨n, fun m hm => (hn m hm).1⟩

/-- Two devices delete one file, neither knowing of the other's delete. -/
def apartDeletes : Swarm symbolic :=
  (Swarm.start 7 fun _ => fourBytes).run
    [.write 1 "p".toList [] 5, .flush 1 11, .apply 2 [(1, 0)] oneByteSource 6, .remove 1 "p".toList 7,
      .flush 1 12, .remove 2 "p".toList 7, .flush 2 13]

/-- **Two deletes take turns for ever.** The chains are valid, there is nothing to fetch
and no limit, and every round of the third device takes both deletes once more. -/
theorem deletes_take_turns :
    let st := apartDeletes 3
    let segments := apartDeletes.picked [(1, 0), (1, 1), (2, 0)]
    ValidChains st segments ∧ st.budget = none ∧ AllFetchable st segments oneByteSource ∧
    ∀ n, ∃ report outcomes,
      (applySegments (rounds st segments (fun _ => oneByteSource) (fun _ => 9) n) segments
        oneByteSource 9).2 = .ok (report, outcomes) ∧ report.changedAnything = true := by
  intro st segments
  refine ⟨⟨by decide +kernel, by decide +kernel, by decide +kernel⟩, rfl, ?_, fun n => ?_⟩
  · have hchunks : ∀ x ∈ candidates st.row (handedOver st segments), x.2.chunks = [] := by
      decide +kernel
    intro r hr p f hop
    rw [hchunks _ (mem_candidates_of_upsert hr hop)]
    exact fun c hc => by cases hc
  · -- the first round leads to a store that every round leads back to
    have hfix : rounds st segments (fun _ => oneByteSource) (fun _ => 9) 2 =
        rounds st segments (fun _ => oneByteSource) (fun _ => 9) 1 := rfl
    have hall : ∀ n, rounds st segments (fun _ => oneByteSource) (fun _ => 9) (n + 1) =
        rounds st segments (fun _ => oneByteSource) (fun _ => 9) 1 := by
      intro n
      induction n with
      | zero => rfl
      | succ n ih =>
        rw [rounds, ih]
        exact hfix
    cases n with
    | zero => exact ⟨_, _, rfl, rfl⟩
    | succ n =>
      rw [hall n]
      exact ⟨_, _, rfl, rfl⟩

end Itsanas
