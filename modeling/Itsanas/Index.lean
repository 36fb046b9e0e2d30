/-
# The index: files, references, the short queue and the log

`itsanas-store/src/index.rs` and `index/placement.rs`. Each definition below is
one redb transaction (or one read) on the tables it opens. `FileTables` holds
the tables a change to the tree touches: the entries, the tombstones, how many
file slots reference each chunk, since when an unreferenced chunk is, the queue
of possibly short chunks, and the cached size of the tree. `LogTables` holds
this device's own chain and the entries not yet sealed into it. `Ledger` is
kept in its own module.

Reference counts are natural numbers here. The source clamps a count at 0, as
below; a count past `u64::MAX` takes more file slots than a disk can list, and is
not modelled. Sizes come from other devices, so their sum does saturate.
-/
import Itsanas.Ledger

namespace Itsanas

/-- The tables a change to the file tree touches. -/
structure FileTables where
  files : Table Path FileEntry
  tombstones : Table Path Tombstone
  chunkRefs : Table ChunkId ℕ
  unreferenced : Table ChunkId ℕ
  shortSince : Table ChunkId ℕ
  /-- Whether the short queue may grow. -/
  queueArmed : Bool
  /-- Sum of the sizes in `files`, once somebody has asked. -/
  localBytes : Option ℕ

namespace FileTables

def new : FileTables := ⟨∅, ∅, ∅, ∅, ∅, false, none⟩

/-! ### Reference counts -/

/-- Queue `c` unless it is queued already or the queue is not armed. -/
def insertNew (armed : Bool) (short : Table ChunkId ℕ) (c : ChunkId) (now : ℕ) : Table ChunkId ℕ :=
  if armed && (short[c]?).isNone then short.insert c now else short

/-- One row of a reference delta; the dropped chunks come after those before it. -/
def applyChange (timestamp : ℕ) (acc : FileTables × List ChunkId) (r : ChunkId × ℤ) :
    FileTables × List ChunkId :=
  let (t, dropped) := acc
  let (c, change) := r
  if change = 0 then (t, dropped)
  else
    let current := (t.chunkRefs[c]?).getD 0
    -- a count that would go negative is clamped
    let updated := ((current : ℤ) + change).toNat
    ({ t with
        chunkRefs := t.chunkRefs.insert c updated
        shortSince :=
          if current = 0 ∧ 0 < updated then insertNew t.queueArmed t.shortSince c timestamp
          else t.shortSince
        unreferenced :=
          if updated = 0 then t.unreferenced.insert c timestamp else t.unreferenced.erase c },
      if updated = 0 then dropped ++ [c] else dropped)

/-- Apply a signed reference delta, maintaining the unreferenced set. Returns
the chunks that fell to zero. -/
def applyReferenceDelta (t : FileTables) (delta : Table ChunkId ℤ) (timestamp : ℕ) :
    FileTables × List ChunkId :=
  delta.toList.foldl (applyChange timestamp) (t, [])

/-- Add `step` to the delta of every chunk listed, once per occurrence. -/
def countChunks (step : ℤ) (chunks : List ChunkId) (delta : Table ChunkId ℤ) : Table ChunkId ℤ :=
  chunks.foldl (fun d c => d.insert c ((d[c]?).getD 0 + step)) delta

/-- The chunks of the entry at `path`, if there is one. -/
def previousChunks (t : FileTables) (path : Path) : List ChunkId :=
  (t.files[path]?).elim [] FileEntry.chunks

/-- The size of the entry at `path`, or 0. -/
def previousSize (t : FileTables) (path : Path) : ℕ := (t.files[path]?).elim 0 FileEntry.size

/-! ### Files -/

/-- Insert or replace the entry for `path`, adjusting reference counts. A live
file supersedes any tombstone at the same path. -/
def putFile (t : FileTables) (path : Path) (entry : FileEntry) (now : ℕ) :
    FileTables × List ChunkId :=
  let delta := countChunks 1 entry.chunks (countChunks (-1) (t.previousChunks path) ∅)
  let (t', dropped) := t.applyReferenceDelta delta now
  ({ t' with
      files := t'.files.insert path entry
      tombstones := t'.tombstones.erase path
      localBytes := t.localBytes.map fun total =>
        saturatingAdd (total - t.previousSize path) entry.size }, dropped)

/-- Take the entry at `path` out of `files`, if there is one. -/
def dropFile (t : FileTables) (path : Path) (now : ℕ) : FileTables × List ChunkId :=
  match t.files[path]? with
  | none => (t, [])
  | some previous =>
    let (t', dropped) := t.applyReferenceDelta (countChunks (-1) previous.chunks ∅) now
    ({ t' with
        files := t'.files.erase path
        localBytes := t.localBytes.map fun total => total - previous.size }, dropped)

/-- Forget the local content of `path` without deleting the file. -/
def releaseFile (t : FileTables) (path : Path) (now : ℕ) : FileTables × List ChunkId :=
  t.dropFile path now

/-- Remove `path`, leaving `tombstone` in its place. -/
def removeFile (t : FileTables) (path : Path) (tombstone : Tombstone) (now : ℕ) :
    FileTables × List ChunkId :=
  let (t', dropped) := t.dropFile path now
  ({ t' with tombstones := t'.tombstones.insert path tombstone }, dropped)

/-- Total size of the files this index holds, counted once and then kept. -/
def countLocalBytes (t : FileTables) : FileTables × ℕ :=
  match t.localBytes with
  | some total => (t, total)
  | none =>
    let total := (t.files.toList.map fun r => r.2.size).foldl saturatingAdd 0
    ({ t with localBytes := some total }, total)

/-- What survives the process: everything but the cached size. -/
def reopen (t : FileTables) : FileTables := { t with localBytes := none }

/-! ### Chunks leaving the index -/

/-- Forget that this device holds `c`: its count, its place among the
unreferenced, its place in the queue. -/
def releaseChunk (t : FileTables) (c : ChunkId) : FileTables :=
  { t with
    chunkRefs := t.chunkRefs.erase c
    unreferenced := t.unreferenced.erase c
    shortSince := t.shortSince.erase c }

/-! ### The short queue -/

/-- Queue the chunks that are live, keeping any earlier timestamp. -/
def enqueueShort (t : FileTables) (chunks : List ChunkId) (now : ℕ) : FileTables :=
  chunks.foldl (fun t c =>
    if !t.queueArmed || (t.chunkRefs[c]?).isNone then t
    else { t with shortSince := insertNew t.queueArmed t.shortSince c now }) t

/-- Take `chunks` off the queue. -/
def settleShort (t : FileTables) (chunks : List ChunkId) : FileTables :=
  { t with shortSince := chunks.foldl (fun s c => s.erase c) t.shortSince }

/-- Arm the queue, or disarm and empty it. Writes only on a change. -/
def setPlacementMeasured (t : FileTables) (measured : Bool) : FileTables :=
  if t.queueArmed = measured ∧ (measured = true ∨ t.shortSince.size = 0) then t
  else
    { t with
      queueArmed := measured
      shortSince := if measured then t.shortSince else ∅ }

end FileTables

/-- This device's own log: the chain it has sealed and what it has not. -/
structure LogTables (K : Crypto) where
  segments : Table ℕ (SegmentEnvelope K)
  pending : Table ℕ LogEntry
  nextSequence : ℕ
  headSegment : Option ObjectId
  chainLength : ℕ

namespace LogTables

variable {K : Crypto}

def new : LogTables K := ⟨∅, ∅, 0, none, 0⟩

/-- The sequence number the next log entry should use. -/
def next (l : LogTables K) : ℕ := max l.nextSequence 1

/-- Record a log entry that has not yet been sealed, and advance the counter. -/
def pushPending (l : LogTables K) (entry : LogEntry) : LogTables K :=
  { l with
    pending := l.pending.insert entry.sequence entry
    nextSequence := entry.sequence + 1 }

/-- Entries waiting to be sealed, in sequence order. -/
def pendingEntries (l : LogTables K) : List LogEntry := l.pending.toList.map Prod.snd

/-- The whole chain, oldest first. -/
def chain (l : LogTables K) : List (SegmentEnvelope K) := l.segments.toList.map Prod.snd

/-- Drop the pending entries of a range of sequence numbers. -/
def clearPending (l : LogTables K) (first last : ℕ) : LogTables K :=
  { l with
    pending := (List.range' first (last + 1 - first)).foldl (fun p s => p.erase s) l.pending }

/-- The log with a segment at its end and the pending entries it covers gone. The
counter never goes backwards. -/
def appended (l : LogTables K) (e : SegmentEnvelope K) : LogTables K :=
  { (l.clearPending e.firstSequence e.lastSequence) with
    segments := l.segments.insert l.chainLength e
    chainLength := l.chainLength + 1
    headSegment := some e.segmentId
    nextSequence := max l.nextSequence (e.lastSequence + 1) }

/-- Append a segment to this device's chain and drop the pending entries it
covers, in one transaction. -/
def appendSegment (l : LogTables K) (e : SegmentEnvelope K) : Except StoreError (LogTables K) :=
  if e.previous ≠ l.headSegment then
    .error (.segmentChainBroken (short e.segmentId) (l.headSegment.elim "none".toList short)
      (e.previous.elim "none".toList short))
  else .ok (l.appended e)

end LogTables

/-- The local metadata database. -/
structure Index (K : Crypto) where
  tree : FileTables
  log : LogTables K
  ledger : Ledger
  /-- Chunks the files need that were found missing from this disk, and when. -/
  losses : Table ChunkId ℕ
  /-- Device to the head of its chain when it was last applied with nothing
  left over. -/
  applied : Table DeviceId ObjectId
  /-- Device to whether a claim of this account names it and no revocation did. -/
  roster : Table DeviceId Bool

namespace Index

variable {K : Crypto}

def new : Index K := ⟨.new, .new, .new, ∅, ∅, ∅⟩

def reopen (ix : Index K) : Index K :=
  { ix with
    tree := ix.tree.reopen
    ledger := ix.ledger.reopen K.auditTag }

def clearLoss (ix : Index K) (chunk : ChunkId) : Index K := { ix with losses := ix.losses.erase chunk }

/-- Forget that this device holds `chunk`, while keeping what it knows about who
else does. -/
def releaseChunk (ix : Index K) (chunk : ChunkId) : Index K :=
  { ix.clearLoss chunk with
    tree := ix.tree.releaseChunk chunk
    ledger := ix.ledger.purgeReleased chunk }

/-- Forget a chunk entirely, after its blob has been deleted. -/
def forgetChunk (ix : Index K) (chunk : ChunkId) : Index K :=
  { ix.clearLoss chunk with
    tree := ix.tree.releaseChunk chunk
    ledger := (ix.ledger.forgetHoldersOf K.auditTag chunk).purgeReleased chunk }

end Index

/-! ### What a reference delta does to one chunk -/

namespace FileTables

/-- The three rows of a chunk: its count, since when it is unreferenced, since
when it is queued. -/
def slot (t : FileTables) (c : ChunkId) : Option ℕ × Option ℕ × Option ℕ :=
  (t.chunkRefs[c]?, t.unreferenced[c]?, t.shortSince[c]?)

/-- A chunk's rows after its count changes by `change`. -/
def changeSlot (armed : Bool) (timestamp : ℕ) (change : ℤ) (s : Option ℕ × Option ℕ × Option ℕ) :
    Option ℕ × Option ℕ × Option ℕ :=
  if change = 0 then s
  else
    let current := s.1.getD 0
    let updated := ((current : ℤ) + change).toNat
    (some updated, if updated = 0 then some timestamp else none,
      if current = 0 ∧ 0 < updated ∧ armed = true ∧ s.2.2 = none then some timestamp else s.2.2)

theorem getElem?_insertNew (armed : Bool) (short : Table ChunkId ℕ) (c c' : ChunkId) (now : ℕ) :
    (insertNew armed short c now)[c']? =
      if c = c' ∧ armed = true ∧ short[c]? = none then some now else short[c']? := by
  unfold insertNew
  by_cases ha : armed = true
  · cases hs : short[c]? with
    | none =>
      simp only [ha, Option.isNone_none, Bool.and_self, ite_true, Table.getElem?_insert', and_true]
    | some n => simp [ha]
  · simp [ha]

theorem slot_applyChange (ts : ℕ) (acc : FileTables × List ChunkId) (r : ChunkId × ℤ) (c : ChunkId) :
    (applyChange ts acc r).1.slot c =
      if r.1 = c then changeSlot acc.1.queueArmed ts r.2 (acc.1.slot c) else acc.1.slot c := by
  obtain ⟨t, dropped⟩ := acc
  obtain ⟨a, change⟩ := r
  by_cases h0 : change = 0
  · simp [applyChange, changeSlot, h0]
  simp only [applyChange, h0, ite_false, changeSlot, slot]
  by_cases hc : a = c
  · subst hc
    simp only [if_true, Table.getElem?_insert_self', Prod.mk.injEq, true_and]
    constructor
    · split_ifs with hu
      · exact (Table.getElem?_insert_self' _ _ _).trans (if_pos hu).symm
      · exact (Table.getElem?_erase_self' _ _).trans (if_neg hu).symm
    · split_ifs with hn hq hq
      · rw [getElem?_insertNew, if_pos ⟨rfl, hq.2.2⟩]
        exact (if_pos hq).symm
      · rw [getElem?_insertNew, if_neg fun h => hq ⟨hn.1, hn.2, h.2⟩]
        exact (if_neg hq).symm
      · exact absurd ⟨hq.1, hq.2.1⟩ hn
      · exact (if_neg hq).symm
  · simp only [if_neg hc, Table.getElem?_insert_ne _ _ hc, Prod.mk.injEq, true_and]
    constructor
    · split_ifs <;> simp [Table.getElem?_insert', Table.getElem?_erase', hc]
    · split_ifs <;> simp [getElem?_insertNew, hc]

/-- What a delta leaves alone: the entries, the tombstones, the arming and the
cached size. -/
def sameTree (t t' : FileTables) : Prop :=
  t'.files = t.files ∧ t'.tombstones = t.tombstones ∧ t'.queueArmed = t.queueArmed ∧
    t'.localBytes = t.localBytes

theorem applyChange_sameTree (ts : ℕ) (acc : FileTables × List ChunkId) (r : ChunkId × ℤ) :
    sameTree acc.1 (applyChange ts acc r).1 := by
  obtain ⟨c, change⟩ := r
  by_cases h0 : change = 0
  · simp [applyChange, h0, sameTree]
  · simp [applyChange, h0, sameTree]

theorem foldl_applyChange_sameTree (ts : ℕ) : ∀ (rows : List (ChunkId × ℤ))
    (acc : FileTables × List ChunkId), sameTree acc.1 (rows.foldl (applyChange ts) acc).1
  | [], _ => ⟨rfl, rfl, rfl, rfl⟩
  | r :: rows, acc => by
    obtain ⟨h1, h2, h3, h4⟩ := foldl_applyChange_sameTree ts rows (applyChange ts acc r)
    obtain ⟨k1, k2, k3, k4⟩ := applyChange_sameTree ts acc r
    exact ⟨h1.trans k1, h2.trans k2, h3.trans k3, h4.trans k4⟩

theorem applyReferenceDelta_sameTree (t : FileTables) (delta : Table ChunkId ℤ) (ts : ℕ) :
    sameTree t (t.applyReferenceDelta delta ts).1 :=
  foldl_applyChange_sameTree ts delta.toList (t, [])

theorem foldl_applyChange_slot (ts : ℕ) (c : ChunkId) : ∀ (rows : List (ChunkId × ℤ))
    (acc : FileTables × List ChunkId), rows.Pairwise (fun a b => a.1 ≠ b.1) →
    (∀ change, (c, change) ∈ rows → (rows.foldl (applyChange ts) acc).1.slot c =
      changeSlot acc.1.queueArmed ts change (acc.1.slot c)) ∧
    ((∀ change, (c, change) ∉ rows) → (rows.foldl (applyChange ts) acc).1.slot c = acc.1.slot c)
  | [], _, _ => by simp
  | r :: rows, acc, h => by
    obtain ⟨hr, hrows⟩ := List.pairwise_cons.mp h
    obtain ⟨ih1, ih2⟩ := foldl_applyChange_slot ts c rows (applyChange ts acc r) hrows
    have harm := (applyChange_sameTree ts acc r).2.2.1
    have hs := slot_applyChange ts acc r c
    simp only [List.foldl_cons]
    constructor
    · intro change hm
      rcases List.mem_cons.mp hm with rfl | hm
      · rw [ih2 fun x hx => hr _ hx rfl, hs, if_pos rfl]
      · rw [ih1 change hm, hs, if_neg (hr _ hm), harm]
    · intro hn
      have hne : r.1 ≠ c := fun he => hn r.2 (by rw [← he]; exact List.mem_cons_self)
      rw [ih2 fun x hx => hn x (List.mem_cons_of_mem _ hx), hs, if_neg hne]

/-- **A delta changes each chunk's rows by its own change and nothing else.** -/
theorem slot_applyReferenceDelta (t : FileTables) (delta : Table ChunkId ℤ) (ts : ℕ) (c : ChunkId) :
    (t.applyReferenceDelta delta ts).1.slot c =
      changeSlot t.queueArmed ts ((delta[c]?).getD 0) (t.slot c) := by
  obtain ⟨h1, h2⟩ := foldl_applyChange_slot ts c delta.toList (t, []) (Table.toList_pairwise delta)
  unfold applyReferenceDelta
  cases hd : delta[c]? with
  | none =>
    rw [h2 fun change hm => by rw [Table.mem_toList, hd] at hm; simp at hm]
    simp [changeSlot]
  | some change => exact h1 change (Table.mem_toList.mpr hd)

theorem mem_applyChange_dropped (ts : ℕ) (acc : FileTables × List ChunkId) (r : ChunkId × ℤ)
    (c : ChunkId) : c ∈ (applyChange ts acc r).2 ↔
      c ∈ acc.2 ∨ c = r.1 ∧ r.2 ≠ 0 ∧ (((acc.1.slot c).1.getD 0 : ℤ) + r.2).toNat = 0 := by
  obtain ⟨t, dropped⟩ := acc
  obtain ⟨a, change⟩ := r
  by_cases h0 : change = 0
  · simp [applyChange, h0]
  · simp only [applyChange, h0, ite_false, slot]
    split_ifs with hu
    · rw [List.mem_append, List.mem_singleton]
      constructor
      · rintro (h | rfl)
        · exact Or.inl h
        · exact Or.inr ⟨rfl, h0, hu⟩
      · rintro (h | ⟨rfl, -, -⟩)
        · exact Or.inl h
        · exact Or.inr rfl
    · refine ⟨Or.inl, ?_⟩
      rintro (h | ⟨rfl, -, h⟩)
      · exact h
      · exact absurd h hu

theorem mem_foldl_applyChange_dropped (ts : ℕ) (c : ChunkId) : ∀ (rows : List (ChunkId × ℤ))
    (acc : FileTables × List ChunkId), rows.Pairwise (fun a b => a.1 ≠ b.1) →
    (c ∈ (rows.foldl (applyChange ts) acc).2 ↔ c ∈ acc.2 ∨
      ∃ change, (c, change) ∈ rows ∧ change ≠ 0 ∧
        (((acc.1.slot c).1.getD 0 : ℤ) + change).toNat = 0)
  | [], _, _ => by simp
  | r :: rows, acc, h => by
    obtain ⟨hr, hrows⟩ := List.pairwise_cons.mp h
    rw [List.foldl_cons, mem_foldl_applyChange_dropped ts c rows _ hrows,
      mem_applyChange_dropped, slot_applyChange]
    constructor
    · rintro ((h | ⟨rfl, h0, hu⟩) | ⟨x, hx, h0, hu⟩)
      · exact Or.inl h
      · exact Or.inr ⟨r.2, List.mem_cons_self, h0, hu⟩
      · rw [if_neg (hr _ hx)] at hu
        exact Or.inr ⟨x, List.mem_cons_of_mem _ hx, h0, hu⟩
    · rintro (h | ⟨x, hx, h0, hu⟩)
      · exact Or.inl (Or.inl h)
      · rcases List.mem_cons.mp hx with rfl | hx
        · exact Or.inl (Or.inr ⟨rfl, h0, hu⟩)
        · exact Or.inr ⟨x, hx, h0, by rwa [if_neg (hr _ hx)]⟩

/-- The chunks a delta drops are those it changes and whose count ends at zero. -/
theorem mem_dropped (t : FileTables) (delta : Table ChunkId ℤ) (ts : ℕ) (c : ChunkId) :
    c ∈ (t.applyReferenceDelta delta ts).2 ↔ (delta[c]?).getD 0 ≠ 0 ∧
      (((t.chunkRefs[c]?).getD 0 : ℤ) + (delta[c]?).getD 0).toNat = 0 := by
  unfold applyReferenceDelta
  rw [mem_foldl_applyChange_dropped ts c _ _ (Table.toList_pairwise delta)]
  cases hd : delta[c]? with
  | none => simp [Table.mem_toList, hd]
  | some change => simp [Table.mem_toList, hd, slot]

end FileTables

end Itsanas
