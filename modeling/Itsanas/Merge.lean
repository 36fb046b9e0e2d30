/-
# What applying an entry does to the rows

The engine reads and writes rows, and fetches chunks on the way. Stripped of the
chunks it is `merge`: a function of the rows and one log entry, with no failure.
`Merged` lists everything a merge can do, case by case with its guard, and is
what every later argument is a case analysis on. The engine refines it
(`applyEntry_merges`): an entry is applied as `merge` says, or the rows stay as
they are and something stood in the way that `Unhindered` rules out.
-/
import Itsanas.Engine

namespace Itsanas

/-- The rows of a store. -/
abbrev Rows : Type := Path → Row

/-- Two versions that dominate each other; the code's `Equal`. -/
def VersionVector.Same (v w : VersionVector) : Prop := v ≤ w ∧ w ≤ v

instance (v w : VersionVector) : Decidable (v.Same w) := inferInstanceAs (Decidable (_ ∧ _))

/-- Neither knew of the other. -/
def VersionVector.Apart (v w : VersionVector) : Prop := ¬v ≤ w ∧ ¬w ≤ v

instance (v w : VersionVector) : Decidable (v.Apart w) := inferInstanceAs (Decidable (_ ∧ _))

theorem VersionVector.Apart.symm {v w : VersionVector} (h : v.Apart w) : w.Apart v := ⟨h.2, h.1⟩

/-! ### The merge -/

/-- Whether the loser of a conflict is beside the winner already. -/
def Placed (rows : Rows) (path : Path) (present remote : FileEntry) : Prop :=
  ∃ f, rows (siblingOf path (loserOf present remote)) = .file f ∧
    f.version.Same (loserOf present remote).version

instance (rows : Rows) (path : Path) (present remote : FileEntry) :
    Decidable (Placed rows path present remote) :=
  match h : rows (siblingOf path (loserOf present remote)) with
  | .file f =>
    decidable_of_iff (f.version.Same (loserOf present remote).version)
      ⟨fun k => ⟨f, h, k⟩, fun ⟨g, hg, k⟩ => by rw [h] at hg; cases hg; exact k⟩
  | .absent => isFalse fun ⟨_, hg, _⟩ => by rw [h] at hg; cases hg
  | .gone _ => isFalse fun ⟨_, hg, _⟩ => by rw [h] at hg; cases hg

/-- The rows with both versions of a conflict in their places. -/
def place (rows : Rows) (path : Path) (present remote : FileEntry) : Rows :=
  if winsOriginalPath remote.authorship present.authorship then
    Function.update (Function.update rows (siblingOf path present) (.file present)) path
      (.file remote)
  else Function.update rows (siblingOf path remote) (.file remote)

variable {rows : Rows}

/-- Putting the loser in its place and the winner at the path changes no other row. -/
theorem place_of_ne {path q : Path} {present remote : FileEntry} (hq : q ≠ path)
    (hs : q ≠ siblingOf path (loserOf present remote)) :
    place rows path present remote q = rows q := by
  unfold place
  unfold loserOf at hs
  split_ifs at hs ⊢
  · rw [Function.update_of_ne hq, Function.update_of_ne hs]
  · rw [Function.update_of_ne hs]

theorem place_sibling (rows : Rows) (path : Path) (present remote : FileEntry) :
    place rows path present remote (siblingOf path (loserOf present remote)) =
      .file (loserOf present remote) := by
  unfold place loserOf
  split_ifs
  · rw [Function.update_of_ne (siblingOf_ne _ _), Function.update_self]
  · rw [Function.update_self]

theorem place_path (rows : Rows) (path : Path) (present remote : FileEntry) :
    place rows path present remote path = .file remote ∨
      place rows path present remote path = rows path := by
  unfold place
  split_ifs
  · exact Or.inl (Function.update_self _ _ _)
  · exact Or.inr (Function.update_of_ne (siblingOf_ne _ _).symm _ _)

def mergeUpsert (rows : Rows) (path : Path) (remote : FileEntry) : Rows × Applied :=
  let adopt := (Function.update rows path (.file remote), Applied.adopted)
  match rows path with
  | .file present =>
    if present.version ≤ remote.version then
      if remote.version ≤ present.version then (rows, .alreadyKnown) else adopt
    else if remote.version ≤ present.version then (rows, .superseded)
    else if Placed rows path present remote then (rows, .alreadyKnown)
    else
      (place rows path present remote,
        .conflicted (siblingOf path (loserOf present remote))
          (winsOriginalPath remote.authorship present.authorship))
  | .gone tombstone => if remote.version ≤ tombstone.version then (rows, .superseded) else adopt
  | .absent => adopt

def mergeRemove (rows : Rows) (path : Path) (tombstone : Tombstone) : Rows × Applied :=
  let adopt := (Function.update rows path (.gone tombstone), Applied.adopted)
  match rows path with
  | .file present => if present.version ≤ tombstone.version then adopt else (rows, .deleteLostToEdit)
  | .gone existing =>
    if tombstone.version ≤ existing.version then
      (rows, if existing.version ≤ tombstone.version then .alreadyKnown else .superseded)
    else adopt
  | .absent => adopt

/-- The tombstone a logged delete of `device` stands for. -/
def LogEntry.tombstone (e : LogEntry) (device : DeviceId) : Tombstone :=
  ⟨e.operation.version, e.recordedUnix, device⟩

/-- Apply one log entry of `device` to the rows. -/
def merge (device : DeviceId) (rows : Rows) (e : LogEntry) : Rows × Applied :=
  match e.operation with
  | .upsert path remote => mergeUpsert rows path remote
  | .remove path _ => mergeRemove rows path (e.tombstone device)

/-- Everything a merge can do. -/
inductive Merged (device : DeviceId) (rows : Rows) (e : LogEntry) : Rows → Applied → Prop
  /-- The version here knows the incoming one. -/
  | known (path : Path) (remote present : FileEntry) (a : Applied)
      (hop : e.operation = .upsert path remote) (hrow : rows path = .file present)
      (hle : remote.version ≤ present.version)
      (ha : a = .alreadyKnown ∨ a = .superseded) : Merged device rows e rows a
  /-- The delete here knows the incoming version. -/
  | dead (path : Path) (remote : FileEntry) (t : Tombstone)
      (hop : e.operation = .upsert path remote) (hrow : rows path = .gone t)
      (hle : remote.version ≤ t.version) : Merged device rows e rows .superseded
  /-- The incoming version is taken. -/
  | adopted (path : Path) (remote : FileEntry)
      (hop : e.operation = .upsert path remote)
      (hrow : rows path = .absent ∨ (∃ t, rows path = .gone t ∧ ¬remote.version ≤ t.version) ∨
        ∃ present, rows path = .file present ∧ present.version < remote.version) :
      Merged device rows e (Function.update rows path (.file remote)) .adopted
  /-- A conflict whose loser has its place. -/
  | placed (path : Path) (remote present : FileEntry)
      (hop : e.operation = .upsert path remote) (hrow : rows path = .file present)
      (hapart : present.version.Apart remote.version)
      (hplaced : Placed rows path present remote) : Merged device rows e rows .alreadyKnown
  /-- A conflict: the loser gets its place. -/
  | conflicted (path : Path) (remote present : FileEntry)
      (hop : e.operation = .upsert path remote) (hrow : rows path = .file present)
      (hapart : present.version.Apart remote.version)
      (hplaced : ¬Placed rows path present remote) :
      Merged device rows e (place rows path present remote)
        (.conflicted (siblingOf path (loserOf present remote))
          (winsOriginalPath remote.authorship present.authorship))
  /-- The delete did not see the version here. -/
  | lost (path : Path) (v : VersionVector) (present : FileEntry)
      (hop : e.operation = .remove path v) (hrow : rows path = .file present)
      (hle : ¬present.version ≤ v) : Merged device rows e rows .deleteLostToEdit
  /-- The delete here knows the incoming one. -/
  | deadAlready (path : Path) (v : VersionVector) (t : Tombstone) (a : Applied)
      (hop : e.operation = .remove path v) (hrow : rows path = .gone t) (hle : v ≤ t.version)
      (ha : a = .alreadyKnown ∨ a = .superseded) : Merged device rows e rows a
  /-- The incoming delete is taken. -/
  | removed (path : Path) (v : VersionVector)
      (hop : e.operation = .remove path v)
      (hrow : rows path = .absent ∨ (∃ t, rows path = .gone t ∧ ¬v ≤ t.version) ∨
        ∃ present, rows path = .file present ∧ present.version ≤ v) :
      Merged device rows e (Function.update rows path (.gone (e.tombstone device))) .adopted

theorem merge_merged (device : DeviceId) (rows : Rows) (e : LogEntry) :
    Merged device rows e (merge device rows e).1 (merge device rows e).2 := by
  unfold merge
  cases hop : e.operation with
  | upsert path remote =>
    show Merged device rows e (mergeUpsert rows path remote).1 (mergeUpsert rows path remote).2
    unfold mergeUpsert
    cases hrow : rows path with
    | absent => exact .adopted path remote hop (Or.inl hrow)
    | gone t =>
      by_cases h : remote.version ≤ t.version
      · simp only [h, ite_true]
        exact .dead path remote t hop hrow h
      · simp only [h, ite_false]
        exact .adopted path remote hop (Or.inr (Or.inl ⟨t, hrow, h⟩))
    | file present =>
      by_cases h : present.version ≤ remote.version <;> by_cases k : remote.version ≤ present.version
      · simp only [h, k, ite_true]
        exact .known path remote present _ hop hrow k (Or.inl rfl)
      · simp only [h, k, ite_true, ite_false]
        exact .adopted path remote hop (Or.inr (Or.inr ⟨present, hrow, lt_iff_le_not_ge.mpr ⟨h, k⟩⟩))
      · simp only [h, k, ite_true, ite_false]
        exact .known path remote present _ hop hrow k (Or.inr rfl)
      · by_cases hp : Placed rows path present remote
        · simp only [h, k, hp, ite_true, ite_false]
          exact .placed path remote present hop hrow ⟨h, k⟩ hp
        · simp only [h, k, hp, ite_false]
          exact .conflicted path remote present hop hrow ⟨h, k⟩ hp
  | remove path v =>
    have hv : (e.tombstone device).version = v := by simp [LogEntry.tombstone, hop, Operation.version]
    show Merged device rows e (mergeRemove rows path (e.tombstone device)).1
      (mergeRemove rows path (e.tombstone device)).2
    unfold mergeRemove
    simp only [hv]
    cases hrow : rows path with
    | absent => exact .removed path v hop (Or.inl hrow)
    | gone t =>
      by_cases h : v ≤ t.version
      · simp only [h, ite_true]
        exact .deadAlready path v t _ hop hrow h (by split_ifs <;> simp)
      · simp only [h, ite_false]
        exact .removed path v hop (Or.inr (Or.inl ⟨t, hrow, h⟩))
    | file present =>
      by_cases h : present.version ≤ v
      · simp only [h, ite_true]
        exact .removed path v hop (Or.inr (Or.inr ⟨present, hrow, h⟩))
      · simp only [h, ite_false]
        exact .lost path v present hop hrow h

/-- The row a logged operation of `device` stands for. -/
def LogEntry.row (e : LogEntry) (device : DeviceId) : Row :=
  match e.operation with
  | .upsert _ entry => .file entry
  | .remove _ _ => .gone (e.tombstone device)

variable {path : Path} {e : LogEntry}

theorem LogEntry.row_upsert {f : FileEntry}
    (h : e.operation = .upsert path f) (device : DeviceId) : e.row device = .file f := by
  unfold row
  rw [h]

theorem LogEntry.row_remove {v : VersionVector}
    (h : e.operation = .remove path v) (device : DeviceId) :
    e.row device = .gone (e.tombstone device) := by
  unfold row
  rw [h]

theorem LogEntry.row_ne_absent (e : LogEntry) (device : DeviceId) : e.row device ≠ .absent := by
  unfold row
  split <;> simp

theorem LogEntry.row_version (e : LogEntry) (device : DeviceId) :
    (e.row device).version = e.operation.version := by
  unfold row
  cases h : e.operation <;> simp [Row.version, tombstone, h, Operation.version]

theorem LogEntry.operation_of_row_file {device : DeviceId} {f : FileEntry}
    (h : e.row device = .file f) : e.operation = .upsert e.operation.path f := by
  unfold row at h
  cases hop : e.operation with
  | upsert p g => rw [hop] at h; cases h; rfl
  | remove p v => rw [hop] at h; cases h

theorem LogEntry.operation_of_row_gone {device : DeviceId} {t : Tombstone}
    (h : e.row device = .gone t) : e.operation = .remove e.operation.path t.version := by
  unfold row at h
  cases hop : e.operation with
  | upsert p g => rw [hop] at h; cases h
  | remove p v =>
    rw [hop] at h
    cases h
    simp [tombstone, hop, Operation.path, Operation.version]

/-- Every row after a merge was there before, is the entry's, or is the live row of
the entry's path moved aside. -/
theorem merge_row_cases (device : DeviceId) (rows : Rows) (e : LogEntry) (q : Path) :
    (merge device rows e).1 q = rows q ∨
    ((merge device rows e).1 q = e.row device ∧ (q = e.operation.path ∨ ∃ f, e.row device = .file f)) ∨
    ∃ f, (merge device rows e).1 q = .file f ∧ rows e.operation.path = .file f := by
  have hm := merge_merged device rows e
  generalize (merge device rows e).1 = rows' at hm ⊢
  generalize (merge device rows e).2 = applied at hm
  cases hm with
  | known | dead | placed | lost | deadAlready => exact Or.inl rfl
  | adopted path remote hop hrow =>
    have he : e.row device = .file remote := LogEntry.row_upsert hop device
    by_cases hq : q = path
    · subst hq
      exact Or.inr (Or.inl ⟨by simp [he], Or.inr ⟨_, he⟩⟩)
    · exact Or.inl (Function.update_of_ne hq _ _)
  | removed path v hop hrow =>
    have he : e.row device = .gone (e.tombstone device) := LogEntry.row_remove hop device
    by_cases hq : q = path
    · subst hq
      exact Or.inr (Or.inl ⟨by simp [he], Or.inl (by simp [hop, Operation.path])⟩)
    · exact Or.inl (Function.update_of_ne hq _ _)
  | conflicted path remote present hop hrow hapart hplaced =>
    have he : e.row device = .file remote := LogEntry.row_upsert hop device
    have hpath : e.operation.path = path := by simp [hop, Operation.path]
    unfold place
    split_ifs
    · by_cases hq : q = path
      · subst hq
        exact Or.inr (Or.inl ⟨by simp [he], Or.inr ⟨_, he⟩⟩)
      · rw [Function.update_of_ne hq]
        by_cases hs : q = siblingOf path present
        · subst hs
          exact Or.inr (Or.inr ⟨present, by simp, by rw [hpath, hrow]⟩)
        · exact Or.inl (Function.update_of_ne hs _ _)
    · by_cases hs : q = siblingOf path remote
      · subst hs
        exact Or.inr (Or.inl ⟨by simp [he], Or.inr ⟨_, he⟩⟩)
      · exact Or.inl (Function.update_of_ne hs _ _)

/-! ### What applying leaves alone -/

variable {K : Crypto}

/-- What no operation of the store touches, but for its settings. -/
structure SameHome (st st' : Store K) : Prop where
  device : st'.device = st.device
  owner : st'.owner = st.owner
  chunker : st'.chunker = st.chunker
  budget : st'.budget = st.budget
  applied : st'.index.applied = st.index.applied
  roster : st'.index.roster = st.index.roster
  apart : st.tree.Apart → st'.tree.Apart

/-- What applying other devices' entries does not touch: this device's log
besides. -/
structure SameNode (st st' : Store K) : Prop extends SameHome st st' where
  log : st'.index.log = st.index.log

variable {st : Store K}

theorem SameHome.rfl : SameHome st st :=
  ⟨Eq.refl _, Eq.refl _, Eq.refl _, Eq.refl _, Eq.refl _, Eq.refl _, id⟩

theorem SameHome.trans {a b c : Store K} (h : SameHome a b) (k : SameHome b c) : SameHome a c :=
  ⟨k.device.trans h.device, k.owner.trans h.owner, k.chunker.trans h.chunker,
    k.budget.trans h.budget, k.applied.trans h.applied, k.roster.trans h.roster,
    fun ha => k.apart (h.apart ha)⟩

theorem SameNode.rfl : SameNode st st := ⟨SameHome.rfl, Eq.refl _⟩

theorem SameNode.trans {a b c : Store K} (h : SameNode a b) (k : SameNode b c) : SameNode a c :=
  ⟨h.toSameHome.trans k.toSameHome, k.log.trans h.log⟩

namespace Store

theorem sameNode_withTree (st : Store K) {t : FileTables} (h : st.tree.Apart → t.Apart) :
    SameNode st (st.withTree t) :=
  ⟨⟨rfl, rfl, rfl, rfl, rfl, rfl, h⟩, rfl⟩

/-- The store with other chunks here, and others known to be missing. -/
def withHere (st : Store K) (blobs : Table ChunkId Bytes) (losses : Table ChunkId ℕ) : Store K :=
  { st with
    blobs := blobs
    index := { st.index with losses := losses } }

theorem sameNode_withHere (st : Store K) (blobs : Table ChunkId Bytes) (losses : Table ChunkId ℕ) :
    SameNode st (st.withHere blobs losses) :=
  ⟨⟨rfl, rfl, rfl, rfl, rfl, rfl, id⟩, rfl⟩

theorem sameNode_withBlobs (st : Store K) (blobs : Table ChunkId Bytes) :
    SameNode st { st with blobs := blobs } :=
  st.sameNode_withHere blobs st.index.losses

theorem sameNode_putFile (st : Store K) (p : Path) (e : FileEntry) (now : ℕ) :
    SameNode st (st.putFile p e now) :=
  st.sameNode_withTree fun h => FileTables.putFile_apart h p e now

theorem sameNode_putTombstone (st : Store K) (p : Path) (d : Tombstone) (now : ℕ) :
    SameNode st (st.putTombstone p d now) :=
  st.sameNode_withTree fun h => FileTables.removeFile_apart h p d now

theorem sameNode_localBytes (st : Store K) : SameNode st st.localBytes.1 :=
  st.sameNode_withTree fun h => by split <;> exact h

theorem row_localBytes (st : Store K) : st.localBytes.1.row = st.row := by
  show st.tree.countLocalBytes.1.row = st.tree.row
  unfold FileTables.countLocalBytes
  split <;> rfl

/-- Asking for room changes nothing but the cached size. -/
theorem pullRoom_same (st : Store K) (path : Path) (incoming : ℕ) (replacing : Bool) :
    SameNode st (st.pullRoom path incoming replacing).1 ∧
      (st.pullRoom path incoming replacing).1.row = st.row ∧
      (st.pullRoom path incoming replacing).1.blobs = st.blobs := by
  unfold pullRoom
  cases st.budget with
  | none => exact ⟨.rfl, rfl, rfl⟩
  | some budget => exact ⟨st.sameNode_localBytes, st.row_localBytes, rfl⟩

theorem pullRoom_none (h : st.budget = none) (path : Path) (incoming : ℕ)
    (replacing : Bool) : st.pullRoom path incoming replacing = (st, none) := by
  rw [pullRoom, h]

/-- Accepting a chunk touches what is here only. -/
theorem acceptChunk_same (st : Store K) (address : ChunkId) (sealed : Bytes) :
    ∃ blobs losses, (st.acceptChunk address sealed).1 = st.withHere blobs losses := by
  unfold acceptChunk
  split_ifs
  · exact ⟨st.blobs, st.index.losses, rfl⟩
  · split
    · exact ⟨st.blobs, st.index.losses, rfl⟩
    · split_ifs
      · exact ⟨st.blobs, st.index.losses, rfl⟩
      · exact ⟨_, _, rfl⟩

theorem adoptEntry_ok (h : validate path = .ok ()) (entry : FileEntry)
    (now : ℕ) : st.adoptEntry path entry now = (st.putFile path entry now, .ok ()) := by
  rw [adoptEntry, h]

theorem adoptTombstone_ok (h : validate path = .ok ()) (tombstone : Tombstone) (now : ℕ) :
    st.adoptTombstone path tombstone now = (st.putTombstone path tombstone now, .ok ()) := by
  rw [adoptTombstone, h]

end Store

/-- Fetching touches what is here only. -/
theorem fetchMissing_same (source : ChunkSource) (owner : UserId) : ∀ (chunks : List ChunkId)
    (st : Store K) (n : ℕ),
    ∃ blobs losses, (fetchMissing source owner st n chunks).1 = st.withHere blobs losses
  | [], st, n => ⟨st.blobs, st.index.losses, rfl⟩
  | address :: rest, st, n => by
    unfold fetchMissing
    split_ifs
    · exact fetchMissing_same source owner rest st n
    · cases source.fetch n owner address with
      | error error => exact ⟨st.blobs, st.index.losses, rfl⟩
      | ok answer =>
        cases answer with
        | none => exact fetchMissing_same source owner rest st (n + 1)
        | some sealed =>
          obtain ⟨b₁, l₁, hb₁⟩ := st.acceptChunk_same address sealed
          dsimp only
          split
          · rename_i st' heq
            rw [heq] at hb₁
            simp only at hb₁
            obtain ⟨blobs, losses, hb⟩ := fetchMissing_same source owner rest st' (n + 1)
            exact ⟨blobs, losses, by rw [hb, hb₁]; rfl⟩
          · rename_i st' heq
            rw [heq] at hb₁
            simp only at hb₁
            obtain ⟨blobs, losses, hb⟩ := fetchMissing_same source owner rest st' (n + 1)
            exact ⟨blobs, losses, by rw [hb, hb₁]; rfl⟩

/-- Whoever is asked for one of `chunks` has it, and it is what it is said to be. -/
def Fetchable (K : Crypto) (maxSize : ℕ) (source : ChunkSource) (owner : UserId)
    (chunks : List ChunkId) : Prop :=
  ∀ c ∈ chunks, ∀ n, ∃ sealed x, source.fetch n owner c = .ok (some sealed) ∧
    sealed.length ≤ maxSize + K.deterministicOverhead ∧ K.openChunk c sealed = some x ∧ K.chunkId x = c

theorem Store.acceptChunk_of_fetchable {c : ChunkId} {sealed x : Bytes}
    (hlen : sealed.length ≤ st.chunker.maxSize + K.deterministicOverhead)
    (ho : K.openChunk c sealed = some x) (hx : K.chunkId x = c) :
    st.acceptChunk c sealed =
      (st.withHere (putBlob st.blobs c sealed).1 (st.index.losses.erase c), true) := by
  unfold acceptChunk
  rw [if_neg hlen.not_gt, ho]
  dsimp only
  rw [if_neg (not_not.mpr hx)]
  rfl

theorem fetchMissing_fetchable {source : ChunkSource} {owner : UserId} : ∀ (chunks : List ChunkId)
    (st : Store K) (n : ℕ), Fetchable K st.chunker.maxSize source owner chunks →
    (fetchMissing source owner st n chunks).2.2 = .ok 0
  | [], _, _, _ => rfl
  | c :: rest, st, n, h => by
    have hrest : Fetchable K st.chunker.maxSize source owner rest :=
      fun c hc => h c (List.mem_cons_of_mem _ hc)
    unfold fetchMissing
    split_ifs
    · exact fetchMissing_fetchable rest st n hrest
    · obtain ⟨sealed, x, hf, hlen, ho, hx⟩ := h c List.mem_cons_self n
      rw [hf]
      dsimp only
      rw [Store.acceptChunk_of_fetchable hlen ho hx]
      exact fetchMissing_fetchable rest _ (n + 1) hrest

/-! ### The engine merges -/

/-- An outcome that changes nothing and asks for no other round. -/
def Applied.Quiet : Applied → Prop
  | .alreadyKnown | .superseded | .deleteLostToEdit => True
  | _ => False

/-- An outcome that leaves an operation for later. -/
inductive Blocked : Except SyncError Applied → Prop
  | error (error : SyncError) : Blocked (.error error)
  | deferred (missing : ℕ) : Blocked (.ok (.deferred missing))
  | noRoom (incoming room : ℕ) : Blocked (.ok (.noRoom incoming room))

/-- What applying something to a store may come to: the rows `rows` with the
outcome `applied`, or the same rows, an outcome that says why, and not `clear`. A
quiet outcome leaves the whole store as it is. -/
structure Refines (st : Store K) (rows : Rows) (applied : Applied) (clear : Prop)
    (result : Store K × ℕ × Except SyncError Applied) : Prop where
  node : SameNode st result.1
  rows : (result.1.row = rows ∧ result.2.2 = .ok applied ∧ (applied.Quiet → result.1 = st)) ∨
    (result.1.row = st.row ∧ Blocked result.2.2 ∧ ¬clear)

theorem Refines.unchanged (st : Store K) (n : ℕ) (applied : Applied) (clear : Prop) :
    Refines st st.row applied clear (st, n, .ok applied) :=
  ⟨.rfl, Or.inl ⟨rfl, rfl, fun _ => rfl⟩⟩

theorem Refines.blocked {st st' : Store K} {n : ℕ} {applied : Applied} {clear : Prop}
    {result : Except SyncError Applied} (hn : SameNode st st') (hr : st'.row = st.row)
    (hb : Blocked result) (hc : ¬clear) : Refines st rows applied clear (st', n, result) :=
  ⟨hn, Or.inr ⟨hr, hb, hc⟩⟩

theorem Refines.mono {applied : Applied} {clear clear' : Prop}
    {result : Store K × ℕ × Except SyncError Applied} (h : Refines st rows applied clear result)
    (hc : clear' → clear) : Refines st rows applied clear' result :=
  ⟨h.node, h.rows.imp_right fun ⟨hr, hb, hn⟩ => ⟨hr, hb, fun k => hn (hc k)⟩⟩

/-- What `remote` needs can be had. -/
def Obtainable (source : ChunkSource) (st : Store K) (owner : UserId) (remote : FileEntry) : Prop :=
  st.budget = none ∧ Fetchable K st.chunker.maxSize source owner remote.chunks

/-- Gathering leaves the rows alone, and what it returns blocks the operation. -/
theorem gather_same (source : ChunkSource) (st : Store K) (n : ℕ) (path : Path) (remote : FileEntry)
    (replacing : Bool) (owner : UserId) :
    let r := gather source st n path remote replacing owner
    SameNode st r.1 ∧ r.1.row = st.row ∧
      (∀ applied, r.2.2 = .ok (some applied) → Blocked (.ok applied)) ∧
      (r.2.2 ≠ .ok none → ¬Obtainable source st owner remote) := by
  obtain ⟨hn, hr, -⟩ := st.pullRoom_same path remote.size replacing
  unfold gather
  rcases hp : st.pullRoom path remote.size replacing with ⟨st₁, _ | room⟩
  · rw [hp] at hn hr
    obtain ⟨blobs, losses, hb⟩ := fetchMissing_same source owner remote.chunks st₁ n
    have hn' := hn.trans (st₁.sameNode_withHere blobs losses)
    have hfetch : Obtainable source st owner remote →
        (fetchMissing source owner st₁ n remote.chunks).2.2 = .ok 0 := fun h =>
      fetchMissing_fetchable _ _ _ (by
        rw [show st₁.chunker = st.chunker from hn.chunker]
        exact h.2)
    dsimp only at hr ⊢
    rcases hf : fetchMissing source owner st₁ n remote.chunks with ⟨st₂, n₂, error | _ | missing⟩
    all_goals
      rw [hf] at hb hfetch
      dsimp only at hb hfetch
      subst hb
      refine ⟨hn', hr, fun applied h => ?_, fun hne ho => ?_⟩
    · cases h
    · cases hfetch ho
    · cases h
    · exact hne rfl
    · cases h
      exact .deferred _
    · cases hfetch ho
  · rw [hp] at hn hr
    refine ⟨hn, hr, fun applied h => ?_, fun _ ho => ?_⟩
    · cases h
      exact .noRoom _ _
    · rw [Store.pullRoom_none ho.1] at hp
      cases hp

theorem adoptUpsert_refines (hv : validate path = .ok ()) (source : ChunkSource)
    (now : ℕ) (st : Store K) (n : ℕ) (remote : FileEntry) (replacing : Bool) (owner : UserId) :
    Refines st (Function.update st.row path (.file remote)) .adopted
      (Obtainable source st owner remote)
        (adoptUpsert source now st n path remote replacing owner):= by
  obtain ⟨hn, hr, hb, hc⟩ := gather_same source st n path remote replacing owner
  unfold adoptUpsert
  rcases hg : gather source st n path remote replacing owner with ⟨st₁, n₁, error | _ | applied⟩
  all_goals
    rw [hg] at hn hr hb hc
    dsimp only at hn hr hb hc ⊢
  · exact .blocked hn hr (.error error) (hc (by simp))
  · simp only [Store.adoptEntry_ok hv]
    refine ⟨hn.trans (Store.sameNode_putFile _ _ _ _), Or.inl ⟨?_, rfl, fun h => h.elim⟩⟩
    rw [Store.row_putFile]
    exact congrArg (Function.update · path (.file remote)) hr
  · exact .blocked hn hr (hb applied rfl) (hc (by simp))

theorem applyConflict_refines (hv : validate path = .ok ()) (source : ChunkSource)
    (now : ℕ) (st : Store K) (n : ℕ) (remote present : FileEntry) (owner : UserId) :
    Refines st
      (if Placed st.row path present remote then st.row else place st.row path present remote)
      (if Placed st.row path present remote then .alreadyKnown
        else .conflicted (siblingOf path (loserOf present remote))
          (winsOriginalPath remote.authorship present.authorship))
      (validate (siblingOf path (loserOf present remote)) = .ok () ∧
        Obtainable source st owner remote)
          (applyConflict source now st n path remote present owner):= by
  unfold applyConflict Store.stat
  dsimp only
  cases hs : validate (siblingOf path (loserOf present remote)) with
  | error error => exact .blocked .rfl rfl (.error _) fun h => by cases h.1
  | ok u =>
    have hplaced : (st.getFile (siblingOf path (loserOf present remote))).any
        (fun existing => existing.version.compare (loserOf present remote).version = .equal) = true ↔
        Placed st.row path present remote := by
      rw [Option.any_eq_true]
      constructor
      · rintro ⟨f, hf, he⟩
        exact ⟨f, Store.getFile_eq_some.mp hf,
          VersionVector.compare_eq_equal.mp (of_decide_eq_true he)⟩
      · rintro ⟨f, hf, he⟩
        exact ⟨f, Store.getFile_eq_some.mpr hf, decide_eq_true (VersionVector.compare_eq_equal.mpr he)⟩
    dsimp only
    by_cases hp : Placed st.row path present remote
    · rw [if_pos hp, if_pos hp]
      rw [if_pos (hplaced.mpr hp)]
      exact .unchanged st n _ _
    · rw [if_neg hp, if_neg hp]
      rw [if_neg (fun h => hp (hplaced.mp h))]
      obtain ⟨hn, hr, hb, hc⟩ := gather_same source st n path remote false owner
      rcases hg : gather source st n path remote false owner with ⟨st₁, n₁, error | _ | applied⟩
      all_goals
        rw [hg] at hn hr hb hc
        dsimp only at hn hr hb hc ⊢
      · exact .blocked hn hr (.error error) fun h => hc (by simp) h.2
      · unfold loserOf at hs
        unfold loserOf place
        by_cases hw : winsOriginalPath remote.authorship present.authorship = true
        · simp only [hw, if_true] at hs ⊢
          simp only [Store.adoptEntry_ok hs, Store.adoptEntry_ok hv]
          refine ⟨hn.trans ((Store.sameNode_putFile _ _ _ _).trans (Store.sameNode_putFile _ _ _ _)),
            Or.inl ⟨?_, rfl, fun h => h.elim⟩⟩
          rw [Store.row_putFile, Store.row_putFile, hr]
        · simp only [hw, Bool.false_eq_true, if_false] at hs ⊢
          simp only [Store.adoptEntry_ok hs]
          refine ⟨hn.trans (Store.sameNode_putFile _ _ _ _), Or.inl ⟨?_, rfl, fun h => h.elim⟩⟩
          rw [Store.row_putFile, hr]
      · exact .blocked hn hr (hb applied rfl) fun h => hc (by simp) h.2

theorem Store.stat_of_row (hv : validate path = .ok ())
    {entry : FileEntry} (h : st.row path = .file entry) : st.stat path = .ok (some entry) := by
  rw [stat, hv, getFile_eq_some.mpr h]

theorem Store.stat_none (hv : validate path = .ok ())
    (h : ∀ entry, st.row path ≠ .file entry) : st.stat path = .ok none := by
  rw [stat, hv, getFile_eq_none h]

/-- The tombstone the engine reads where no file is live. -/
theorem Store.tombstone_of_row (hv : validate path = .ok ())
    (h : ∀ entry, st.row path ≠ .file entry) :
    st.tombstone path = .ok (match st.row path with
      | .gone t => some t
      | _ => none) := by
  have hn := getFile_eq_none h
  unfold getFile at hn
  unfold tombstone getTombstone row FileTables.row
  rw [hv, hn]
  cases st.tree.tombstones[path]? <;> rfl

/-- If `remote` is in conflict at `path`, the loser's place is a path. -/
def PlaceValid (st : Store K) (path : Path) (remote : FileEntry) : Prop :=
  ∀ present, st.row path = .file present → present.version.Apart remote.version →
    validate (siblingOf path (loserOf present remote)) = .ok ()

/-- Nothing stands in the way of the operation. -/
def Unhindered (source : ChunkSource) (st : Store K) (owner : UserId) : Operation → Prop
  | .upsert path remote =>
    validate path = .ok () ∧ Obtainable source st owner remote ∧ PlaceValid st path remote
  | .remove path _ => validate path = .ok ()

theorem applyUpsert_refines (hv : validate path = .ok ()) (source : ChunkSource)
    (now : ℕ) (st : Store K) (n : ℕ) (remote : FileEntry) (owner : UserId) :
    Refines st (mergeUpsert st.row path remote).1 (mergeUpsert st.row path remote).2
      (Obtainable source st owner remote ∧ PlaceValid st path remote)
      (applyUpsert source now st n path remote owner) := by
  unfold applyUpsert mergeUpsert
  cases hrow : st.row path with
  | file present =>
    rw [Store.stat_of_row hv hrow]
    dsimp only
    rw [VersionVector.compare_eq]
    by_cases h : present.version ≤ remote.version <;> by_cases k : remote.version ≤ present.version
    · simp only [h, k, if_true]
      exact .unchanged st n _ _
    · simp only [h, k, if_true, if_false]
      exact (adoptUpsert_refines hv source now st n remote true owner).mono And.left
    · simp only [h, k, if_true, if_false]
      exact .unchanged st n _ _
    · simp only [h, k, if_false]
      have hc := (applyConflict_refines hv source now st n remote present owner).mono
        fun hc : Obtainable source st owner remote ∧ PlaceValid st path remote =>
          ⟨hc.2 present hrow ⟨h, k⟩, hc.1⟩
      by_cases hp : Placed st.row path present remote
      · simpa only [hp, if_true] using hc
      · simpa only [hp, if_false] using hc
  | gone t =>
    have hne : ∀ entry, st.row path ≠ .file entry := by simp [hrow]
    rw [Store.stat_none hv hne, Store.tombstone_of_row hv hne, hrow]
    dsimp only
    rw [VersionVector.compare_eq]
    have hadopt := (adoptUpsert_refines hv source now st n remote false owner).mono
      (And.left (b := PlaceValid st path remote))
    by_cases h : remote.version ≤ t.version <;> by_cases k : t.version ≤ remote.version
    · simp only [h, k, if_true]
      exact .unchanged st n _ _
    · simp only [h, k, if_true, if_false]
      exact .unchanged st n _ _
    · simpa only [h, k, if_true, if_false] using hadopt
    · simpa only [h, k, if_false] using hadopt
  | absent =>
    have hne : ∀ entry, st.row path ≠ .file entry := by simp [hrow]
    rw [Store.stat_none hv hne, Store.tombstone_of_row hv hne, hrow]
    exact (adoptUpsert_refines hv source now st n remote false owner).mono And.left

theorem applyRemove_refines (hv : validate path = .ok ()) (now : ℕ) (st : Store K)
    (n : ℕ) (e : LogEntry) (v : VersionVector) (device : DeviceId) :
    Refines st (mergeRemove st.row path ⟨v, e.recordedUnix, device⟩).1
      (mergeRemove st.row path ⟨v, e.recordedUnix, device⟩).2 True
      (applyRemove now st n path e v device) := by
  have hadopt : Refines st (Function.update st.row path (.gone ⟨v, e.recordedUnix, device⟩)) .adopted
      True (st.putTombstone path ⟨v, e.recordedUnix, device⟩ now, n, .ok .adopted) :=
    ⟨Store.sameNode_putTombstone _ _ _ _, 
      Or.inl ⟨Store.row_putTombstone _ _ _ _, rfl, fun h => h.elim⟩⟩
  unfold applyRemove mergeRemove
  rw [Store.adoptTombstone_ok hv]
  cases hrow : st.row path with
  | file present =>
    rw [Store.stat_of_row hv hrow]
    dsimp only
    rw [VersionVector.compare_eq]
    by_cases h : present.version ≤ v <;> by_cases k : v ≤ present.version
    · simpa only [h, k, if_true] using hadopt
    · simpa only [h, k, if_true, if_false] using hadopt
    · simp only [h, k, if_true, if_false]
      exact .unchanged st n _ _
    · simp only [h, k, if_false]
      exact .unchanged st n _ _
  | gone t =>
    have hne : ∀ entry, st.row path ≠ .file entry := by simp [hrow]
    rw [Store.stat_none hv hne, Store.tombstone_of_row hv hne, hrow]
    dsimp only
    rw [VersionVector.compare_eq]
    by_cases h : t.version ≤ v <;> by_cases k : v ≤ t.version
    · simp only [h, k, if_true]
      exact .unchanged st n _ _
    · simpa only [h, k, if_true, if_false] using hadopt
    · simp only [h, k, if_true, if_false]
      exact .unchanged st n _ _
    · simpa only [h, k, if_false] using hadopt
  | absent =>
    have hne : ∀ entry, st.row path ≠ .file entry := by simp [hrow]
    rw [Store.stat_none hv hne, Store.tombstone_of_row hv hne, hrow]
    exact hadopt

/-- **The engine merges.** Applying an entry does to the rows what `merge` says, or
nothing, and then the outcome says why; a path the store refuses is an error. -/
theorem applyEntry_merges (source : ChunkSource) (now : ℕ) (st : Store K) (n : ℕ)
    (device : DeviceId) (e : LogEntry) (owner : UserId) :
    Refines st (merge device st.row e).1 (merge device st.row e).2
      (Unhindered source st owner e.operation) (applyEntry source now st n device e owner) := by
  unfold applyEntry merge
  cases hop : e.operation with
  | upsert path remote =>
    dsimp only
    cases hv : validate path with
    | ok u =>
      exact (applyUpsert_refines hv source now st n remote owner).mono fun h => ⟨h.2.1, h.2.2⟩
    | error error =>
      unfold applyUpsert Store.stat
      rw [hv]
      exact .blocked .rfl rfl (.error _) fun h => by simp [Unhindered, hv] at h
  | remove path v =>
    have ht : e.tombstone device = ⟨v, e.recordedUnix, device⟩ := by
      simp [LogEntry.tombstone, hop, Operation.version]
    dsimp only
    rw [ht]
    cases hv : validate path with
    | ok u => exact (applyRemove_refines hv now st n e v device).mono fun _ => trivial
    | error error =>
      unfold applyRemove Store.stat
      rw [hv]
      exact .blocked .rfl rfl (.error _) fun h => by simp [Unhindered, hv] at h

end Itsanas
