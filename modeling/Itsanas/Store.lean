/-
# The store

`itsanas-store/src/store.rs`: sealed chunks on disk, an index over them, and the
log of what this device did. A write streams its chunks in first, then puts the
entry into the index, then logs it; a refused write takes back the blobs it
brought into existence and no others. Deletion only drops references, and
`collectGarbage` deletes blobs later.

A call that fails part of the way leaves what it has done so far, so every
operation returns the store it leaves behind next to its result. `now` is the
clock as the call reads it and `segmentId` the random id a flush draws.

What the rest of the development sees of a store is its `row` at each path: a
live entry, a tombstone, or nothing.
-/
import Itsanas.Chunker
import Itsanas.References

namespace Itsanas

/-- Whether pulled files are also copied into a folder, and where. -/
inductive FolderCopy
  | none
  | sameVolume (localThen : ℕ)
  | otherVolume (localThen room : ℕ)
  deriving DecidableEq

/-- How much a write may add. -/
structure WriteBudget where
  allowed : ℕ
  elsewhere : ℕ
  localCeiling : Option ℕ
  folderCopy : FolderCopy
  deriving DecidableEq

/-- What a release did. -/
inductive Release
  | gone (chunks bytes : ℕ)
  | notHere
  | notSafeYet (chunk : ChunkId) (evidence : HolderEvidence)
  deriving DecidableEq

/-- What a collection did. -/
structure GcReport where
  blobsRemoved : ℕ
  bytesReclaimed : ℕ
  retainedInGrace : ℕ
  alreadyAbsent : ℕ
  deriving DecidableEq

/-- The store of one device of one account. -/
structure Store (K : Crypto) where
  device : DeviceId
  owner : UserId
  chunker : Chunker
  index : Index K
  blobs : Table ChunkId Bytes
  budget : Option WriteBudget

/-- Store `sealed` under `address` unless something is there already. Says
whether it was stored. -/
def putBlob (blobs : Table ChunkId Bytes) (address : ChunkId) (sealed : Bytes) :
    Table ChunkId Bytes × Bool :=
  if (blobs[address]?).isSome then (blobs, false) else (blobs.insert address sealed, true)

namespace Store

variable {K : Crypto}

/-- A store just made for a device. -/
def new (device : DeviceId) (owner : UserId) (chunker : Chunker) : Store K :=
  ⟨device, owner, chunker, .new, ∅, none⟩

/-- The files and tombstones, with the tables that go with them. -/
abbrev tree (st : Store K) : FileTables := st.index.tree

def withTree (st : Store K) (t : FileTables) : Store K :=
  { st with index := { st.index with tree := t } }

def withLog (st : Store K) (log : LogTables K) : Store K :=
  { st with index := { st.index with log := log } }

/-! ### Reading the index -/

/-- The entry at `path`. -/
def getFile (st : Store K) (path : Path) : Option FileEntry := st.tree.files[path]?

def getTombstone (st : Store K) (path : Path) : Option Tombstone := st.tree.tombstones[path]?

/-- Metadata for `path`. -/
def stat (st : Store K) (path : Path) : Except StoreError (Option FileEntry) :=
  match validate path with
  | .error error => .error error
  | .ok () => .ok (st.getFile path)

/-- The tombstone at `path`. -/
def tombstone (st : Store K) (path : Path) : Except StoreError (Option Tombstone) :=
  match validate path with
  | .error error => .error error
  | .ok () => .ok (st.getTombstone path)

/-- The version a new change at `path` builds on: the live entry's, else the
tombstone's, else nothing. -/
def baseVersion (st : Store K) (path : Path) : VersionVector :=
  match st.getFile path with
  | some entry => entry.version
  | none =>
    match st.getTombstone path with
    | some tombstone => tombstone.version
    | none => .new

/-! ### Budgets -/

def setWriteBudget (st : Store K) (budget : Option WriteBudget) : Store K :=
  { st with budget := budget }

/-- The bytes of the files here; counting them is remembered. -/
def localBytes (st : Store K) : Store K × ℕ :=
  let (t, total) := st.tree.countLocalBytes
  (st.withTree t, total)

/-- What the account holds besides the file at `path`. -/
def accountBesides (st : Store K) (path : Path) (budget : WriteBudget) : Store K × ℕ :=
  let replaced := (st.getFile path).elim 0 FileEntry.size
  let (st', total) := st.localBytes
  (st', saturatingAdd budget.elsewhere total - replaced)

/-- Why a write that brings the account from `account` to `total` is refused, if
it is. -/
def refusePast (path : Path) (budget : WriteBudget) (account total : ℕ) : Option StoreError :=
  if budget.allowed < total then some (.overBudget path account total budget.allowed)
  else
    let localBefore := account - budget.elsewhere
    let localAfter := total - budget.elsewhere
    match budget.localCeiling with
    | some ceiling =>
      if ceiling < localAfter then some (.diskFull path (total - account) (ceiling - localBefore))
      else none
    | none => none

/-- Whether a file of `incoming` bytes fits at `path`, asked before a byte is read. -/
def checkRoom (st : Store K) (path : Path) (incoming : ℕ) : Store K × Except StoreError Unit :=
  match st.budget with
  | none => (st, .ok ())
  | some budget =>
    let (st', account) := st.accountBesides path budget
    match refusePast path budget account (saturatingAdd account incoming) with
    | some error => (st', .error error)
    | none => (st', .ok ())

def pastCeiling (ceiling : Option ℕ) (present incoming : ℕ) : Option ℕ :=
  match ceiling with
  | some ceiling => if ceiling < saturatingAdd present incoming then some (ceiling - present) else none
  | none => none

def saturatingDouble (n : ℕ) : ℕ := min (n * 2) u64Max

/-- The room left, if pulling `incoming` bytes to `path` does not fit. -/
def pullRoom (st : Store K) (path : Path) (incoming : ℕ) (replacing : Bool) : Store K × Option ℕ :=
  match st.budget with
  | none => (st, none)
  | some budget =>
    let replaced := if replacing then (st.getFile path).elim 0 FileEntry.size else 0
    let (st', total) := st.localBytes
    let present := total - replaced
    (st',
      match budget.folderCopy with
      | .sameVolume localThen =>
        match budget.localCeiling with
        | none => none
        | some ceiling =>
          let room := ceiling - localThen
          let spent := saturatingDouble (present - localThen)
          if room < saturatingAdd spent (saturatingDouble incoming) then some ((room - spent) / 2)
          else none
      | .otherVolume localThen room =>
        let spent := present - localThen
        if room < saturatingAdd spent incoming then some (room - spent)
        else pastCeiling budget.localCeiling present incoming
      | .none => pastCeiling budget.localCeiling present incoming)

/-! ### Writing -/

/-- Put `entry` at `path` in the index. -/
def putFile (st : Store K) (path : Path) (entry : FileEntry) (now : ℕ) : Store K :=
  st.withTree (st.tree.putFile path entry now).1

/-- Put `tombstone` at `path` in the index, taking the entry out. -/
def putTombstone (st : Store K) (path : Path) (tombstone : Tombstone) (now : ℕ) : Store K :=
  st.withTree (st.tree.removeFile path tombstone now).1

/-- Log an operation of this device. -/
def pushPending (st : Store K) (entry : LogEntry) : Store K :=
  st.withLog (st.index.log.pushPending entry)

/-- A write under way: what it has stored and hashed. -/
structure Streaming where
  blobs : Table ChunkId Bytes
  /-- Blobs this call brought into existence. -/
  created : List ChunkId
  chunks : List ChunkId
  /-- The bytes given to the hasher. -/
  hashed : Bytes
  size : ℕ

/-- Seal and store one chunk of a write. -/
def onChunk (K : Crypto) (path : Path) (budget : Option WriteBudget) (account : ℕ) (s : Streaming)
    (chunk : Bytes) : Streaming × Option StoreError :=
  let s := { s with hashed := s.hashed ++ chunk, size := s.size + chunk.length }
  match budget.bind fun budget => refusePast path budget account (saturatingAdd account s.size) with
  | some error => (s, some error)
  | none =>
    let address := K.chunkId chunk
    let (blobs, new) := putBlob s.blobs address (K.sealChunk chunk)
    ({ s with
        blobs := blobs
        created := if new then s.created ++ [address] else s.created
        chunks := s.chunks ++ [address] }, none)

/-- The account a write at `path` is held against, counted only under a budget. -/
def accountFor (st : Store K) (path : Path) : Store K × ℕ :=
  match st.budget with
  | some budget => st.accountBesides path budget
  | none => (st, 0)

/-- The entry of a streamed write. -/
def streamedEntry (st : Store K) (path : Path) (now : ℕ) (s : Streaming) : FileEntry :=
  { size := s.size
    modifiedUnix := now
    contentHash := K.contentHash s.hashed
    chunks := s.chunks
    version := (st.baseVersion path).advanced st.device st.index.log.next
    author := st.device }

/-- What becomes of a stream: a refused one takes its own blobs back, an accepted
one is put at its path. -/
def putStreamed (st : Store K) (path : Path) (now : ℕ) :
    Streaming × Option StoreError → Store K × Except StoreError FileEntry
  | (s, some error) =>
    -- only blobs of this call go: one that was here belongs to another file
    ({ st with blobs := s.created.foldl (fun blobs address => blobs.erase address) s.blobs },
      .error error)
  | (s, none) =>
    (({ st with blobs := s.blobs } : Store K).putFile path (st.streamedEntry path now s) now,
      .ok (st.streamedEntry path now s))

/-- The first part of a write, up to the index: stream the chunks in and put the
entry at its path. -/
def writeIndex (st : Store K) (path : Path) (reader : Reader) (now : ℕ) :
    Store K × Except StoreError FileEntry :=
  match validate path with
  | .error error => (st, .error error)
  | .ok () =>
    let (st, account) := st.accountFor path
    st.putStreamed path now
      (splitStream st.chunker reader (onChunk K path st.budget account) ⟨st.blobs, [], [], [], 0⟩)

/-- Write a file from a reader. Index first, log second. -/
def writeStream (st : Store K) (path : Path) (reader : Reader) (now : ℕ) :
    Store K × Except StoreError FileEntry :=
  match st.writeIndex path reader now with
  | (st', .error error) => (st', .error error)
  | (st', .ok entry) =>
    (st'.pushPending ⟨st.index.log.next, entry.modifiedUnix, .upsert path entry⟩, .ok entry)

/-- The tombstone of a delete by this device, on top of `base`. -/
def ownTombstone (st : Store K) (base : VersionVector) (now : ℕ) : Tombstone :=
  { version := base.advanced st.device st.index.log.next
    removedUnix := now
    author := st.device }

/-- The first part of a delete: the index. -/
def removeIndex (st : Store K) (path : Path) (now : ℕ) :
    Store K × Except StoreError (Option Tombstone) :=
  match validate path with
  | .error error => (st, .error error)
  | .ok () =>
    match st.getFile path with
    | none => (st, .ok none)
    | some _ =>
      let tombstone := st.ownTombstone (st.baseVersion path) now
      (st.putTombstone path tombstone now, .ok (some tombstone))

/-- Log a delete whose tombstone is in the index. The counter has not moved since
the tombstone was stamped. -/
def logRemove (st : Store K) (path : Path) (tombstone : Tombstone) : Store K :=
  st.pushPending ⟨st.index.log.next, tombstone.removedUnix, .remove path tombstone.version⟩

/-- Delete a file. Says whether there was one. -/
def removeFile (st : Store K) (path : Path) (now : ℕ) : Store K × Except StoreError Bool :=
  match st.removeIndex path now with
  | (st', .error error) => (st', .error error)
  | (st', .ok none) => (st', .ok false)
  | (st', .ok (some tombstone)) => (st'.logRemove path tombstone, .ok true)

/-- The first part of a delete of content not held here. -/
def removeUnheldIndex (st : Store K) (path : Path) (seen : VersionVector) (now : ℕ) :
    Store K × Except StoreError Tombstone :=
  match validate path with
  | .error error => (st, .error error)
  | .ok () =>
    let tombstone := st.ownTombstone ((st.baseVersion path).merge seen) now
    (st.putTombstone path tombstone now, .ok tombstone)

/-- Delete a file whose content this device does not hold, at a version it has
seen. -/
def removeUnheld (st : Store K) (path : Path) (seen : VersionVector) (now : ℕ) :
    Store K × Except StoreError Bool :=
  match st.removeUnheldIndex path seen now with
  | (st', .error error) => (st', .error error)
  | (st', .ok tombstone) => (st'.logRemove path tombstone, .ok true)

/-! ### Releasing -/

/-- The first chunk of `entry` that a release would lose without two proved
holders elsewhere, with what is known of its holders. A chunk that other files
list as well survives. -/
def unsafeChunk (st : Store K) (entry : FileEntry) (now : ℕ) : Option (ChunkId × HolderEvidence) :=
  entry.chunks.findSome? fun address =>
    let own := entry.chunks.count address
    if own < (st.tree.chunkRefs[address]?).getD 0 then none
    else
      let evidence := st.index.ledger.holderEvidence address now
      if evidence.proved < Ledger.safeToRelease ∨ evidence.fresh = 0 then some (address, evidence)
      else none

/-- Let one dropped chunk go: its blob and its rows. -/
def releaseChunk (acc : Store K × ℕ × ℕ) (address : ChunkId) : Store K × ℕ × ℕ :=
  let (st, chunks, bytes) := acc
  let st' := { st with index := st.index.releaseChunk address }
  match st.blobs[address]? with
  | some sealed =>
    ({ st' with blobs := st.blobs.erase address }, chunks + 1, saturatingAdd bytes sealed.length)
  | none => (st', chunks, bytes)

/-- Drop the local content of `path`, if enough other machines hold it. -/
def release (st : Store K) (path : Path) (now : ℕ) : Store K × Except StoreError Release :=
  match validate path with
  | .error error => (st, .error error)
  | .ok () =>
    match st.getFile path with
    | none => (st, .ok .notHere)
    | some entry =>
      match st.unsafeChunk entry now with
      | some (chunk, evidence) => (st, .ok (.notSafeYet chunk evidence))
      | none =>
        let (t, dropped) := st.tree.releaseFile path now
        let (st', chunks, bytes) := dropped.foldl releaseChunk (st.withTree t, 0, 0)
        (st', .ok (.gone chunks bytes))

/-! ### Adopting -/

/-- Record an entry another device made, whose chunks are here. -/
def adoptEntry (st : Store K) (path : Path) (entry : FileEntry) (now : ℕ) :
    Store K × Except StoreError Unit :=
  match validate path with
  | .error error => (st, .error error)
  | .ok () => (st.putFile path entry now, .ok ())

/-- Record a delete another device made. -/
def adoptTombstone (st : Store K) (path : Path) (tombstone : Tombstone) (now : ℕ) :
    Store K × Except StoreError Unit :=
  match validate path with
  | .error error => (st, .error error)
  | .ok () => (st.putTombstone path tombstone now, .ok ())

def hasChunk (st : Store K) (address : ChunkId) : Bool := (st.blobs[address]?).isSome

/-- Store sealed bytes from elsewhere, if they are the chunk they are said to be. -/
def acceptChunk (st : Store K) (address : ChunkId) (sealed : Bytes) : Store K × Bool :=
  if st.chunker.maxSize + K.deterministicOverhead < sealed.length then (st, false)
  else
    match K.openChunk address sealed with
    | none => (st, false)
    | some plaintext =>
      if K.chunkId plaintext ≠ address then (st, false)
      else
        ({ st with
            blobs := (putBlob st.blobs address sealed).1
            index := st.index.clearLoss address }, true)

/-! ### Reading -/

/-- The bytes of a list of chunks, opened one by one. -/
def readChunks (K : Crypto) (blobs : Table ChunkId Bytes) : List ChunkId → Except StoreError Bytes
  | [] => .ok []
  | address :: rest =>
    match blobs[address]? with
    | none => .error (.missingChunk (short address))
    | some sealed =>
      match K.openChunk address sealed with
      | none => .error .crypto
      | some chunk =>
        match readChunks K blobs rest with
        | .error error => .error error
        | .ok bytes => .ok (chunk ++ bytes)

/-- Read a file, checking its length and its hash against the index. -/
def readFile (st : Store K) (path : Path) : Except StoreError (Option Bytes) :=
  match validate path with
  | .error error => .error error
  | .ok () =>
    match st.getFile path with
    | none => .ok none
    | some entry =>
      match readChunks K st.blobs entry.chunks with
      | .error error => .error error
      | .ok bytes =>
        let name := String.ofList path
        let written := bytes.length
        let recorded := entry.size
        if written ≠ recorded then
          .error (.corrupt s!"{name}: reassembled {written} bytes but the index recorded {recorded}")
        else if K.contentHash bytes ≠ entry.contentHash then
          .error (.corrupt s!"{name}: reassembled content does not match its recorded hash")
        else .ok (some bytes)

/-! ### The log -/

/-- Seal everything pending into a segment, if there is anything. -/
def flushSegment (st : Store K) (segmentId : ObjectId) :
    Store K × Except StoreError (Option (SegmentEnvelope K)) :=
  match st.index.log.pendingEntries with
  | [] => (st, .ok none)
  | entries =>
    match SegmentEnvelope.create st.owner st.device st.index.log.headSegment segmentId entries with
    | .error error => (st, .error error)
    | .ok envelope =>
      match st.index.log.appendSegment envelope with
      | .error error => (st, .error error)
      | .ok log => (st.withLog log, .ok (some envelope))

/-- This device's chain. -/
def segments (st : Store K) : List (SegmentEnvelope K) := st.index.log.chain

def foreignText (st : Store K) (envelope : SegmentEnvelope K) : String :=
  let id := String.ofList (short envelope.segmentId)
  let theirs := String.ofList (short envelope.owner)
  let ours := String.ofList (short st.owner)
  s!"segment {id} belongs to {theirs}, not to this store's owner {ours}"

/-- Open a segment of this account. -/
def openSegment (st : Store K) (envelope : SegmentEnvelope K) : Except StoreError (List LogEntry) :=
  if envelope.owner ≠ st.owner then .error (.corrupt (st.foreignText envelope))
  else envelope.openBody

/-- Whether a chain signed by `device` may be applied: an unarmed roster gates
nothing. -/
def mayApplyChainOf (st : Store K) (device : DeviceId) : Bool :=
  device = st.device || st.index.roster.isEmpty || st.index.roster[device]? = some true

/-! ### Housekeeping -/

/-- One chunk of a collection. -/
def collectChunk (cutoff : ℕ) (acc : Store K × GcReport) (r : ChunkId × ℕ) : Store K × GcReport :=
  let (st, report) := acc
  let (address, since) := r
  if cutoff < since then (st, { report with retainedInGrace := report.retainedInGrace + 1 })
  else
    let st' : Store K := { st with index := st.index.forgetChunk address }
    match st.blobs[address]? with
    | some sealed =>
      ({ st' with blobs := st.blobs.erase address },
        { report with
          blobsRemoved := report.blobsRemoved + 1
          bytesReclaimed := saturatingAdd report.bytesReclaimed sealed.length })
    | none => (st', { report with alreadyAbsent := report.alreadyAbsent + 1 })

/-- Delete the blobs nothing has referenced for the grace period. -/
def collectGarbage (st : Store K) (grace now : ℕ) : Store K × GcReport :=
  st.tree.unreferenced.toList.foldl (collectChunk (now - grace)) (st, ⟨0, 0, 0, 0⟩)

/-- A restart: the budget and the cached size are gone. -/
def reopen (st : Store K) : Store K := { st with index := st.index.reopen, budget := none }

end Store

/-! ### The row at a path -/

/-- What a store says about a path. -/
inductive Row
  | absent
  | file (entry : FileEntry)
  | gone (tombstone : Tombstone)
  deriving DecidableEq

namespace Row

/-- The version a row carries. -/
def version : Row → VersionVector
  | absent => .new
  | file entry => entry.version
  | gone tombstone => tombstone.version

end Row

/-- The row of a pair of tables at a path. A live file supersedes a tombstone. -/
def FileTables.row (t : FileTables) (path : Path) : Row :=
  match t.files[path]? with
  | some entry => .file entry
  | none =>
    match t.tombstones[path]? with
    | some tombstone => .gone tombstone
    | none => .absent

variable {p : Path}

namespace FileTables

theorem row_putFile (t : FileTables) (p : Path) (e : FileEntry) (now : ℕ) :
    (t.putFile p e now).1.row = Function.update t.row p (.file e) := by
  funext q
  unfold row
  rw [files_putFile, tombstones_putFile, Table.getElem?_insert', Table.getElem?_erase']
  by_cases h : p = q
  · subst h; simp
  · simp [h, Function.update_of_ne (Ne.symm h)]

theorem row_removeFile (t : FileTables) (p : Path) (d : Tombstone) (now : ℕ) :
    (t.removeFile p d now).1.row = Function.update t.row p (.gone d) := by
  funext q
  have hf : (t.removeFile p d now).1.files = t.files.erase p := files_dropFile t p now
  have ht : (t.removeFile p d now).1.tombstones = t.tombstones.insert p d := by
    rw [← tombstones_dropFile t p now]; rfl
  unfold row
  rw [hf, ht, Table.getElem?_insert', Table.getElem?_erase']
  by_cases h : p = q
  · subst h; simp
  · simp [h, Function.update_of_ne (Ne.symm h)]

theorem row_of_sameTree {t t' : FileTables} (h : sameTree t t') : t'.row = t.row := by
  funext q
  unfold row
  rw [h.1, h.2.1]

/-- Releasing a path forgets its entry and leaves no tombstone. -/
theorem row_releaseFile {t : FileTables} (ht : t.Apart) {e : FileEntry}
    (hp : t.files[p]? = some e) (now : ℕ) :
    (t.releaseFile p now).1.row = Function.update t.row p .absent := by
  funext q
  unfold row
  rw [releaseFile, files_dropFile, tombstones_dropFile, Table.getElem?_erase']
  by_cases h : p = q
  · subst h
    rcases ht p with ha | ha
    · rw [hp] at ha; cases ha
    · simp [ha]
  · simp [h, Function.update_of_ne (Ne.symm h)]

end FileTables

namespace Store

variable {K : Crypto}

/-- What this store says about a path. -/
def row (st : Store K) : Path → Row := st.tree.row

variable {st : Store K}

theorem getFile_eq_some {e : FileEntry} :
    st.getFile p = some e ↔ st.row p = .file e := by
  unfold getFile row FileTables.row
  cases st.tree.files[p]? with
  | some f => simp
  | none => cases st.tree.tombstones[p]? <;> simp

theorem getFile_eq_none (h : ∀ e, st.row p ≠ .file e) :
    st.getFile p = none := by
  cases hg : st.getFile p with
  | none => rfl
  | some e => exact absurd (getFile_eq_some.mp hg) (h e)

/-- Where no path is both live and deleted, every tombstone is the row of its path. -/
theorem row_of_getTombstone (ha : st.tree.Apart) {t : Tombstone}
    (h : st.getTombstone p = some t) : st.row p = .gone t := by
  unfold getTombstone at h
  have hn : st.tree.files[p]? = none := by
    rcases ha p with h0 | h0
    · exact h0
    · rw [h0] at h
      cases h
  show st.tree.row p = .gone t
  rw [FileTables.row, hn, h]

theorem baseVersion_eq (st : Store K) (p : Path) : st.baseVersion p = (st.row p).version := by
  unfold baseVersion getFile getTombstone row FileTables.row
  cases st.tree.files[p]? with
  | some f => rfl
  | none => cases st.tree.tombstones[p]? <;> rfl

@[simp] theorem row_putFile (st : Store K) (p : Path) (e : FileEntry) (now : ℕ) :
    (st.putFile p e now).row = Function.update st.row p (.file e) :=
  FileTables.row_putFile _ _ _ _

@[simp] theorem row_putTombstone (st : Store K) (p : Path) (d : Tombstone) (now : ℕ) :
    (st.putTombstone p d now).row = Function.update st.row p (.gone d) :=
  FileTables.row_removeFile _ _ _ _

end Store

end Itsanas
