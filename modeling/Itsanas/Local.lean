/-
# What this device's own operations do

A write or a delete of this device is two transactions: its row goes into the
index, and then the operation goes into the log under the next sequence number.
`Stamp` is what the operation carries: that number, and a version that is a base
advanced by it, where the base is what the path holds (`Store.baseVersion`), with
what the caller has seen besides for content not held here. `Recorded` is the
first transaction and `Logged` both.
-/
import Itsanas.Merge
import Itsanas.OwnLog

namespace Itsanas

variable {K : Crypto}

/-- The operation `e` is stamped by the device of `st` on top of `base`. -/
structure Stamp (st : Store K) (e : LogEntry) (base : VersionVector) : Prop where
  sequence : e.sequence = st.index.log.next
  version : e.operation.version = base.advanced st.device st.index.log.next
  author : ∀ path entry, e.operation = .upsert path entry → entry.author = st.device

/-- `st'` has the row of `e` in its index, and not yet in its log. -/
structure Recorded (st st' : Store K) (e : LogEntry) : Prop where
  node : SameNode st st'
  row : st'.row = Function.update st.row e.operation.path (e.row st.device)

/-- `st'` has `e` in its index and in its log. -/
structure Logged (st st' : Store K) (e : LogEntry) : Prop where
  home : SameHome st st'
  row : st'.row = Function.update st.row e.operation.path (e.row st.device)
  log : st'.index.log = st.index.log.pushPending e

/-- The store changed nothing this development follows. -/
structure Unmoved (st st' : Store K) : Prop where
  node : SameNode st st'
  row : st'.row = st.row

theorem Unmoved.rfl {st : Store K} : Unmoved st st := ⟨.rfl, Eq.refl _⟩

/-- The second transaction. -/
theorem Recorded.pushPending {st st' : Store K} {e : LogEntry} (h : Recorded st st' e) :
    Logged st (st'.pushPending e) e := by
  have hpush : SameHome st' (st'.pushPending e) := ⟨rfl, rfl, rfl, rfl, rfl, rfl, id⟩
  refine ⟨h.node.toSameHome.trans hpush, h.row, ?_⟩
  show st'.index.log.pushPending e = _
  rw [h.node.log]

namespace Store

/-! ### Writing -/

/-- Counting the account fills the cache and nothing else. -/
theorem accountFor_same (st : Store K) (path : Path) :
    Unmoved st (st.accountFor path).1 ∧ (st.accountFor path).1.blobs = st.blobs := by
  unfold accountFor
  cases st.budget with
  | none => exact ⟨.rfl, rfl⟩
  | some budget => exact ⟨⟨st.sameNode_localBytes, st.row_localBytes⟩, rfl⟩

/-- The log entry of a write. -/
def writeEntry (st : Store K) (path : Path) (entry : FileEntry) : LogEntry :=
  ⟨st.index.log.next, entry.modifiedUnix, .upsert path entry⟩

/-- The first part of a write refuses, or records an entry on top of what the path
holds. -/
theorem writeIndex_cases (st : Store K) (path : Path) (reader : Reader) (now : ℕ) :
    (∃ st' error, st.writeIndex path reader now = (st', .error error) ∧ Unmoved st st') ∨
    ∃ st' entry, st.writeIndex path reader now = (st', .ok entry) ∧ validate path = .ok () ∧
      Recorded st st' (st.writeEntry path entry) ∧
      Stamp st (st.writeEntry path entry) (st.row path).version := by
  unfold writeIndex
  cases hv : validate path with
  | error error => exact Or.inl ⟨st, error, rfl, .rfl⟩
  | ok u =>
    obtain ⟨hsame, -⟩ := st.accountFor_same path
    rcases hst : st.accountFor path with ⟨st₁, account⟩
    rw [hst] at hsame
    dsimp only at hsame ⊢
    rcases splitStream st₁.chunker reader (onChunk K path st₁.budget account)
      ⟨st₁.blobs, [], [], [], 0⟩ with ⟨s, _ | error⟩
    · refine Or.inr ⟨_, _, rfl, rfl, ⟨?_, ?_⟩, rfl, ?_, ?_⟩
      · exact hsame.node.trans ((st₁.sameNode_withBlobs s.blobs).trans (sameNode_putFile _ _ _ _))
      · rw [row_putFile]
        exact congrArg (Function.update · path _) hsame.row
      · show (st₁.baseVersion path).advanced st₁.device st₁.index.log.next = _
        rw [baseVersion_eq, hsame.row, hsame.node.device, hsame.node.log]
      · intro q f hf
        cases hf
        exact hsame.node.device
    · exact Or.inl ⟨_, error, rfl, hsame.node.trans (st₁.sameNode_withBlobs _), hsame.row⟩

/-- **A write refuses, or logs an entry on top of what the path holds.** -/
theorem writeStream_cases (st : Store K) (path : Path) (reader : Reader) (now : ℕ) :
    (∃ st' error, st.writeStream path reader now = (st', .error error) ∧ Unmoved st st') ∨
    ∃ st' entry, st.writeStream path reader now = (st', .ok entry) ∧ validate path = .ok () ∧
      Logged st st' (st.writeEntry path entry) ∧
      Stamp st (st.writeEntry path entry) (st.row path).version := by
  unfold writeStream
  rcases st.writeIndex_cases path reader now with ⟨st', error, h, hu⟩ | ⟨st', entry, h, hv, hr, hs⟩
  · exact Or.inl ⟨st', error, by rw [h], hu⟩
  · exact Or.inr ⟨_, entry, by rw [h]; rfl, hv, hr.pushPending, hs⟩

/-! ### Deleting -/

/-- The log entry of a delete. -/
def removeEntry (st : Store K) (path : Path) (tombstone : Tombstone) : LogEntry :=
  ⟨st.index.log.next, tombstone.removedUnix, .remove path tombstone.version⟩

theorem putTombstone_recorded (st : Store K) (path : Path) (base : VersionVector) (now : ℕ) :
    Recorded st (st.putTombstone path (st.ownTombstone base now) now)
        (st.removeEntry path (st.ownTombstone base now)) ∧
      Stamp st (st.removeEntry path (st.ownTombstone base now)) base :=
  ⟨⟨sameNode_putTombstone _ _ _ _, row_putTombstone _ _ _ _⟩, rfl, rfl, fun _ _ h => by cases h⟩

theorem removeIndex_cases (st : Store K) (path : Path) (now : ℕ) :
    (∃ r, st.removeIndex path now = (st, r) ∧ ∀ t, r ≠ .ok (some t)) ∨
    ∃ st' tombstone f, st.removeIndex path now = (st', .ok (some tombstone)) ∧
      validate path = .ok () ∧ st.row path = .file f ∧
      Recorded st st' (st.removeEntry path tombstone) ∧
      Stamp st (st.removeEntry path tombstone) (st.row path).version := by
  unfold removeIndex
  cases hv : validate path with
  | error error => exact Or.inl ⟨_, rfl, by simp⟩
  | ok u =>
    cases hf : st.getFile path with
    | none => exact Or.inl ⟨_, rfl, by simp⟩
    | some f =>
      right
      obtain ⟨hr, hs⟩ := st.putTombstone_recorded path (st.baseVersion path) now
      exact ⟨_, _, f, rfl, rfl, getFile_eq_some.mp hf, hr, st.baseVersion_eq path ▸ hs⟩

theorem logRemove_eq {st st' : Store K} (h : SameNode st st') (path : Path) (t : Tombstone) :
    st'.logRemove path t = st'.pushPending (st.removeEntry path t) := by
  rw [logRemove, removeEntry, h.log]

/-- **A delete does nothing, or logs a tombstone on top of the entry it removes.** -/
theorem removeFile_cases (st : Store K) (path : Path) (now : ℕ) :
    (∃ r, st.removeFile path now = (st, r) ∧ r ≠ .ok true) ∨
    ∃ st' tombstone f, st.removeFile path now = (st', .ok true) ∧ validate path = .ok () ∧
      st.row path = .file f ∧ Logged st st' (st.removeEntry path tombstone) ∧
      Stamp st (st.removeEntry path tombstone) (st.row path).version := by
  unfold removeFile
  rcases st.removeIndex_cases path now with ⟨r, h, hr⟩ | ⟨st', t, f, h, hv, hf, hr, hs⟩
  · left
    rw [h]
    match r with
    | .error error => exact ⟨_, rfl, by simp⟩
    | .ok none => exact ⟨_, rfl, by simp⟩
    | .ok (some t) => exact absurd rfl (hr t)
  · refine Or.inr ⟨_, t, f, by rw [h], hv, hf, ?_, hs⟩
    rw [logRemove_eq hr.node]
    exact hr.pushPending

/-- **A delete of content not held here logs a tombstone on top of what the path
holds and what was seen.** -/
theorem removeUnheld_cases (st : Store K) (path : Path) (seen : VersionVector) (now : ℕ) :
    (∃ error, st.removeUnheld path seen now = (st, .error error)) ∨
    ∃ st' tombstone, st.removeUnheld path seen now = (st', .ok true) ∧ validate path = .ok () ∧
      Logged st st' (st.removeEntry path tombstone) ∧
      Stamp st (st.removeEntry path tombstone) ((st.row path).version.merge seen) := by
  unfold removeUnheld removeUnheldIndex
  cases hv : validate path with
  | error error => exact Or.inl ⟨error, rfl⟩
  | ok u =>
    right
    obtain ⟨hr, hs⟩ := st.putTombstone_recorded path ((st.baseVersion path).merge seen) now
    refine ⟨_, st.ownTombstone ((st.baseVersion path).merge seen) now, rfl, rfl, ?_,
      st.baseVersion_eq path ▸ hs⟩
    rw [logRemove_eq hr.node]
    exact hr.pushPending

/-! ### Releasing and collecting -/

theorem releaseChunk_same (acc : Store K × ℕ × ℕ) (c : ChunkId) :
    SameNode acc.1 (releaseChunk acc c).1 ∧
      FileTables.sameTree acc.1.tree (releaseChunk acc c).1.tree := by
  obtain ⟨st, chunks, bytes⟩ := acc
  unfold releaseChunk
  dsimp only
  have hindex : SameNode st { st with index := st.index.releaseChunk c } :=
    ⟨⟨rfl, rfl, rfl, rfl, rfl, rfl, id⟩, rfl⟩
  cases st.blobs[c]? with
  | none => exact ⟨hindex, rfl, rfl, rfl, rfl⟩
  | some sealed => exact ⟨hindex.trans (sameNode_withBlobs _ _), rfl, rfl, rfl, rfl⟩

theorem foldl_releaseChunk_same : ∀ (cs : List ChunkId) (acc : Store K × ℕ × ℕ),
    SameNode acc.1 (cs.foldl releaseChunk acc).1 ∧ (cs.foldl releaseChunk acc).1.row = acc.1.row
  | [], _ => ⟨.rfl, rfl⟩
  | c :: cs, acc => by
    obtain ⟨h1, h2⟩ := foldl_releaseChunk_same cs (releaseChunk acc c)
    obtain ⟨k1, k2⟩ := releaseChunk_same acc c
    exact ⟨k1.trans h1, h2.trans (FileTables.row_of_sameTree k2)⟩

/-- **A release does nothing, or forgets the row of its path.** -/
theorem release_cases {st : Store K} (ha : st.tree.Apart) (path : Path) (now : ℕ) :
    (∃ r, st.release path now = (st, r)) ∨
    ∃ st' f chunks bytes, st.release path now = (st', .ok (.gone chunks bytes)) ∧
      st.row path = .file f ∧ SameNode st st' ∧
      st'.row = Function.update st.row path .absent := by
  unfold release
  cases validate path with
  | error error => exact Or.inl ⟨_, rfl⟩
  | ok u =>
    cases hf : st.getFile path with
    | none => exact Or.inl ⟨_, rfl⟩
    | some f =>
      dsimp only
      cases st.unsafeChunk f now with
      | some c => exact Or.inl ⟨_, rfl⟩
      | none =>
        right
        obtain ⟨h1, h2⟩ := foldl_releaseChunk_same (st.tree.releaseFile path now).2
          (st.withTree (st.tree.releaseFile path now).1, 0, 0)
        refine ⟨_, f, _, _, rfl, getFile_eq_some.mp hf, ?_, ?_⟩
        · exact (st.sameNode_withTree fun h => FileTables.dropFile_apart h path now).trans h1
        · rw [h2]
          exact FileTables.row_releaseFile ha hf now

end Store

end Itsanas
