/-
# Merging other devices' logs

`itsanas-sync/src/engine.rs`: the segments a host serves are separated by
device, each chain is validated and opened, and its entries are applied one by
one. An upsert is adopted, ignored or conflicts with what is here; a conflict
puts the loser beside the winner; a delete never beats a version it did not see.
Nothing is adopted before all its chunks are here.

A chunk source answers over a network, so its answer may differ from call to
call: `ChunkSource.fetch n` is what the `n`-th call gets, and the engine's
functions count their calls.
-/
import Itsanas.Lib.Walk
import Itsanas.Store

namespace Itsanas

open Walk

/-- What can go wrong while merging. -/
inductive SyncError
  | store (error : StoreError)
  | source (text : String)
  deriving DecidableEq

/-- Where chunks come from: the answer to the `n`-th call. -/
structure ChunkSource where
  fetch : ℕ → UserId → ChunkId → Except SyncError (Option Bytes)

/-- What happened to one operation. -/
inductive Applied
  | adopted
  | alreadyKnown
  | superseded
  | conflicted (sibling : Path) (remoteKeptOriginal : Bool)
  | deleteLostToEdit
  | deferred (missing : ℕ)
  | noRoom (incoming room : ℕ)
  deriving DecidableEq

structure Outcome where
  path : Path
  applied : Applied
  deriving DecidableEq

/-- What applying a set of segments did. -/
structure SyncReport where
  adopted : ℕ
  alreadyKnown : ℕ
  superseded : ℕ
  conflicted : ℕ
  deletesLost : ℕ
  deferred : ℕ
  noRoom : ℕ
  refusedChains : ℕ
  refusedDevices : List DeviceId
  unrosteredChains : ℕ
  deriving DecidableEq

namespace SyncReport

def new : SyncReport := ⟨0, 0, 0, 0, 0, 0, 0, 0, [], 0⟩

def record (r : SyncReport) : Applied → SyncReport
  | .adopted => { r with adopted := r.adopted + 1 }
  | .alreadyKnown => { r with alreadyKnown := r.alreadyKnown + 1 }
  | .superseded => { r with superseded := r.superseded + 1 }
  | .conflicted _ _ => { r with conflicted := r.conflicted + 1 }
  | .deleteLostToEdit => { r with deletesLost := r.deletesLost + 1 }
  | .deferred _ => { r with deferred := r.deferred + 1 }
  | .noRoom _ _ => { r with deferred := r.deferred + 1, noRoom := r.noRoom + 1 }

def needsAnotherRound (r : SyncReport) : Bool := 0 < r.deferred

/-- Whether the round did anything. -/
def changedAnything (r : SyncReport) : Bool := 0 < r.adopted || 0 < r.conflicted

end SyncReport

/-- Whether a device's own segments are applied as well. -/
inductive Replay
  | othersOnly
  | includingOwn
  deriving DecidableEq

variable {K : Crypto}

/-! ### One operation -/

/-- Fetch those of `chunks` that are not here. Counts those still missing. -/
def fetchMissing (source : ChunkSource) (owner : UserId) :
    Store K → ℕ → List ChunkId → Store K × ℕ × Except SyncError ℕ
  | st, n, [] => (st, n, .ok 0)
  | st, n, address :: rest =>
    if st.hasChunk address then fetchMissing source owner st n rest
    else
      match source.fetch n owner address with
      | .error error => (st, n + 1, .error error)
      | .ok none =>
        let (st', n', missing) := fetchMissing source owner st (n + 1) rest
        (st', n', missing.map (· + 1))
      | .ok (some sealed) =>
        match st.acceptChunk address sealed with
        | (st', true) => fetchMissing source owner st' (n + 1) rest
        -- bytes that do not open under their address were never the chunk
        | (st', false) =>
          let (st', n', missing) := fetchMissing source owner st' (n + 1) rest
          (st', n', missing.map (· + 1))

/-- Ask for room and then for the chunks `remote` needs. Returns what stands in
the way of taking it, if anything does. -/
def gather (source : ChunkSource) (st : Store K) (n : ℕ) (path : Path) (remote : FileEntry)
    (replacing : Bool) (owner : UserId) : Store K × ℕ × Except SyncError (Option Applied) :=
  -- before the first chunk: a refusal half-way would leave chunks no entry counts
  match st.pullRoom path remote.size replacing with
  | (st, some room) => (st, n, .ok (some (.noRoom remote.size room)))
  | (st, none) =>
    match fetchMissing source owner st n remote.chunks with
    | (st, n, .error error) => (st, n, .error error)
    | (st, n, .ok (missing + 1)) => (st, n, .ok (some (.deferred (missing + 1))))
    | (st, n, .ok 0) => (st, n, .ok none)

/-- Of two concurrent versions, the one that moves aside. -/
def loserOf (present remote : FileEntry) : FileEntry :=
  if winsOriginalPath remote.authorship present.authorship then present else remote

/-- Where `e` goes when it loses at `path`. -/
def siblingOf (path : Path) (e : FileEntry) : Path :=
  siblingPath path e.authorship.1 e.authorship.2

theorem siblingOf_ne (path : Path) (e : FileEntry) : siblingOf path e ≠ path := siblingPath_ne _ _ _

/-- Put two concurrent versions side by side. -/
def applyConflict (source : ChunkSource) (now : ℕ) (st : Store K) (n : ℕ) (path : Path)
    (remote present : FileEntry) (owner : UserId) : Store K × ℕ × Except SyncError Applied :=
  let remoteWins := winsOriginalPath remote.authorship present.authorship
  let loser := loserOf present remote
  let sibling := siblingOf path loser
  match st.stat sibling with
  | .error error => (st, n, .error (.store error))
  | .ok existing =>
    -- hosts re-serve segments: a conflict resolved before is left alone
    if existing.any (fun existing => existing.version.compare loser.version = .equal) then
      (st, n, .ok .alreadyKnown)
    else
      -- both versions are about to exist, so nothing is replaced
      match gather source st n path remote false owner with
      | (st, n, .error error) => (st, n, .error error)
      | (st, n, .ok (some applied)) => (st, n, .ok applied)
      | (st, n, .ok none) =>
        if remoteWins then
          match st.adoptEntry sibling present now with
          | (st, .error error) => (st, n, .error (.store error))
          | (st, .ok ()) =>
            match st.adoptEntry path remote now with
            | (st, .error error) => (st, n, .error (.store error))
            | (st, .ok ()) => (st, n, .ok (.conflicted sibling true))
        else
          match st.adoptEntry sibling remote now with
          | (st, .error error) => (st, n, .error (.store error))
          | (st, .ok ()) => (st, n, .ok (.conflicted sibling false))

/-- Take `remote` in at `path`, where nothing here stands against it. -/
def adoptUpsert (source : ChunkSource) (now : ℕ) (st : Store K) (n : ℕ) (path : Path)
    (remote : FileEntry) (replacing : Bool) (owner : UserId) :
    Store K × ℕ × Except SyncError Applied :=
  match gather source st n path remote replacing owner with
  | (st, n, .error error) => (st, n, .error error)
  | (st, n, .ok (some applied)) => (st, n, .ok applied)
  | (st, n, .ok none) =>
    match st.adoptEntry path remote now with
    | (st, .error error) => (st, n, .error (.store error))
    | (st, .ok ()) => (st, n, .ok .adopted)

/-- Apply another device's version of `path`. -/
def applyUpsert (source : ChunkSource) (now : ℕ) (st : Store K) (n : ℕ) (path : Path)
    (remote : FileEntry) (owner : UserId) : Store K × ℕ × Except SyncError Applied :=
  match st.stat path with
  | .error error => (st, n, .error (.store error))
  | .ok (some present) =>
    match present.version.compare remote.version with
    | .equal => (st, n, .ok .alreadyKnown)
    | .after => (st, n, .ok .superseded)
    | .before => adoptUpsert source now st n path remote true owner
    | .concurrent => applyConflict source now st n path remote present owner
  | .ok none =>
    match st.tombstone path with
    | .error error => (st, n, .error (.store error))
    | .ok (some tombstone) =>
      match tombstone.version.compare remote.version with
      -- the delete saw this edit, or a later one
      | .after | .equal => (st, n, .ok .superseded)
      -- the edit came after the delete, or raced it
      | .before | .concurrent => adoptUpsert source now st n path remote false owner
    | .ok none => adoptUpsert source now st n path remote false owner

/-- Apply another device's delete of `path`. -/
def applyRemove (now : ℕ) (st : Store K) (n : ℕ) (path : Path) (entry : LogEntry)
    (version : VersionVector) (device : DeviceId) : Store K × ℕ × Except SyncError Applied :=
  let adopt : Store K × ℕ × Except SyncError Applied :=
    match st.adoptTombstone path ⟨version, entry.recordedUnix, device⟩ now with
    | (st, .error error) => (st, n, .error (.store error))
    | (st, .ok ()) => (st, n, .ok .adopted)
  match st.stat path with
  | .error error => (st, n, .error (.store error))
  | .ok (some present) =>
    match present.version.compare version with
    -- a version the delete never saw: the edit wins
    | .concurrent | .after => (st, n, .ok .deleteLostToEdit)
    | .before | .equal => adopt
  | .ok none =>
    match st.tombstone path with
    | .error error => (st, n, .error (.store error))
    | .ok (some existing) =>
      match existing.version.compare version with
      | .equal => (st, n, .ok .alreadyKnown)
      | .after => (st, n, .ok .superseded)
      | .before | .concurrent => adopt
    | .ok none => adopt

/-- Apply one log entry. -/
def applyEntry (source : ChunkSource) (now : ℕ) (st : Store K) (n : ℕ) (device : DeviceId)
    (entry : LogEntry) (owner : UserId) : Store K × ℕ × Except SyncError Applied :=
  match entry.operation with
  | .upsert path remote => applyUpsert source now st n path remote owner
  | .remove path version => applyRemove now st n path entry version device

/-! ### A set of segments -/

/-- A call under way: the store, how many chunks it has asked for, and what it
has done so far. -/
structure Applying (K : Crypto) where
  store : Store K
  calls : ℕ
  report : SyncReport
  outcomes : List Outcome

/-- Apply one entry of a segment and record what happened. -/
def stepEntry (source : ChunkSource) (now : ℕ) (device : DeviceId) (owner : UserId)
    (a : Applying K) (entry : LogEntry) : Applying K × Option SyncError :=
  match applyEntry source now a.store a.calls device entry owner with
  | (st, n, .error error) => ({ a with store := st, calls := n }, some error)
  | (st, n, .ok applied) =>
    (⟨st, n, a.report.record applied, a.outcomes ++ [⟨entry.operation.path, applied⟩]⟩, none)

/-- Open one segment of a chain and apply its entries. -/
def stepEnvelope (source : ChunkSource) (now : ℕ) (device : DeviceId) (a : Applying K)
    (envelope : SegmentEnvelope K) : Applying K × Option SyncError :=
  match a.store.openSegment envelope with
  | .error error => (a, some (.store error))
  | .ok entries => walk (stepEntry source now device envelope.owner) a entries

/-- Apply one device's chain. -/
def stepChain (source : ChunkSource) (now : ℕ) (replay : Replay) (a : Applying K)
    (r : DeviceId × List (SegmentEnvelope K)) : Applying K × Option SyncError :=
  let (device, chain) := r
  if replay = .othersOnly ∧ device = a.store.device then (a, none)
  else if ¬a.store.mayApplyChainOf device then
    ({ a with report := { a.report with unrosteredChains := a.report.unrosteredChains + 1 } }, none)
  else
    match validateChain chain with
    | .error error => (a, some (.store error))
    | .ok () => walk (stepEnvelope source now device) a chain

/-- The segments of each device, in the order given. -/
def byDevice (segments : List (SegmentEnvelope K)) : Table DeviceId (List (SegmentEnvelope K)) :=
  segments.foldl (fun t e => t.insert e.device ((t[e.device]?).getD [] ++ [e])) ∅

/-- Apply segments from several devices, chain by chain in device order. -/
def applyReplaying (st : Store K) (segments : List (SegmentEnvelope K)) (source : ChunkSource)
    (replay : Replay) (now : ℕ) : Store K × Except SyncError (SyncReport × List Outcome) :=
  match walk (stepChain source now replay) ⟨st, 0, .new, []⟩ (byDevice segments).toList with
  | (a, some error) => (a.store, .error error)
  | (a, none) => (a.store, .ok (a.report, a.outcomes))

/-- Apply other devices' segments. -/
def applySegments (st : Store K) (segments : List (SegmentEnvelope K)) (source : ChunkSource)
    (now : ℕ) : Store K × Except SyncError (SyncReport × List Outcome) :=
  applyReplaying st segments source .othersOnly now

/-! ### Comparing two stores -/

/-- One way in which two stores disagree. -/
inductive Divergence
  | onlyOnLeft (path : Path)
  | onlyOnRight (path : Path)
  | contentDiffers (path : Path)
  deriving DecidableEq

/-- Where two stores disagree: their paths and the content at them. -/
def diff (left right : Store K) : List Divergence :=
  let leftFiles := left.tree.files
  let rightFiles := right.tree.files
  (leftFiles.toList.filterMap fun r =>
    match rightFiles[r.1]? with
    | none => some (.onlyOnLeft r.1)
    | some other =>
        if other.contentHash ≠ r.2.contentHash then some (.contentDiffers r.1) else none) ++
  (rightFiles.toList.filterMap fun r =>
    if (leftFiles[r.1]?).isNone then some (.onlyOnRight r.1) else none)

/-- Stores with the same files do not differ. -/
theorem diff_eq_nil {left right : Store K} (h : left.tree.files = right.tree.files) :
    diff left right = [] := by
  unfold diff
  rw [h]
  refine List.append_eq_nil_iff.mpr ⟨?_, ?_⟩
  · refine List.filterMap_eq_nil_iff.mpr fun r hr => ?_
    rw [Table.mem_toList.mp hr]
    simp
  · refine List.filterMap_eq_nil_iff.mpr fun r hr => ?_
    rw [Table.mem_toList.mp hr]
    simp

end Itsanas
