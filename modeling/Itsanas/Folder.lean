/-
# The synced folder

`itsanas-folder`: a directory kept in step with a store. A pass scans the directory
(`scan.rs`), decides from the marker file whether it is the folder at all, and then takes every
path that the disk, the store or the ledger knows, one after the other, through the decision of
`decision.rs`. The ledger says what this device last put on disk or read from it, so it tells an
edit here from one elsewhere, and a deletion from a file that never came.

A pass is a program over a `World`: the file tree, the store with its ledger, and the pass's own
counter and report. What it does not control is a `Machine`: where the folder is, the clock, and
what else happens on the disk before each of its calls, which may be anything. A path of the
folder is handled as its names below the root; where those lead is for the file system to say.
-/
import Itsanas.Lib.Effects
import Itsanas.Lib.Files
import Itsanas.Store

namespace Itsanas
namespace Folder

open Files

/-! ### Names -/

/-- Directory for staging atomic writes. -/
def stagingDir : Str := ".itsanas-tmp".toList

/-- The file that says whose folder this is. -/
def marker : Str := ".itsanas-folder".toList

def ignoredNames :
    List Str := [".DS_Store", "Thumbs.db", "desktop.ini", "ehthumbs.db"].map String.toList

def ignoredPrefixes : List Str := ["~$", ".~lock."].map String.toList

def ignoredSuffixes : List Str := [".tmp", ".crdownload", ".part"].map String.toList

/-- Whether a file name is ignored entirely. -/
def isIgnored (name : Str) : Bool :=
  name = marker || ignoredNames.contains name || ignoredPrefixes.any (·.isPrefixOf name) ||
    ignoredSuffixes.any (·.isSuffixOf name)

/-- The names of a relative path. -/
def components (path : Path) :
    List Str := (path.splitOn '/').filter fun name => name ≠ [] ∧ name ≠ ['.']

/-- What can go wrong mirroring a directory. -/
inductive FolderError
  | io (names : List Str) (error : IoError)
  | other (names : List Str) (text : String)
  | store (error : StoreError)
  | escapes (path : Path)
  | noFolder
  | foreign (named : Str)
  | unmounted (known : ℕ)
  deriving DecidableEq

/-- The names below the root of a logical path, refusing anything that escapes. -/
def toFilesystem (path : Path) : Except FolderError (List Str) :=
  match validate path with
  | .error _ => .error (.escapes path)
  | .ok () =>
    if (components path).contains ['.', '.'] ∨ path.head? = some '/' then .error (.escapes path)
    else .ok (components path)

/-- The logical path of names below the root, if it is one to sync. -/
def toLogical (names : List Str) : Option Path :=
  if names.any fun name => name = stagingDir || isIgnored name then none
  else if names = [] then none
  else
    match validate (['/'].intercalate names) with
    | .error _ => none
    | .ok () => some (['/'].intercalate names)

/-! ### The decision -/

/-- What reconciliation does about one path. -/
inductive Decision
  | nothing
  | recordOnly
  | importFile
  | removeFromStore
  | exportFile
  | deleteFromDisk
  | keepBoth
  deriving DecidableEq

/-- Decide from the content hashes of the three views, `none` where the file is absent. -/
def decide (onDisk inStore ledger : Option Id) : Decision :=
  let localChanged := onDisk != ledger
  let remoteChanged := inStore != ledger
  match localChanged, remoteChanged with
  | false, false => .nothing
  | true, false =>
    match onDisk with
    | some _ => .importFile
    | none => .removeFromStore
  | false, true =>
    match inStore with
    | some _ => .exportFile
    | none => .deleteFromDisk
  | true, true =>
    if onDisk = inStore then .recordOnly
    else
      match onDisk, inStore with
      | none, some _ => .exportFile
      | some _, none => .importFile
      | _, _ => .keepBoth

/-! ### The world of a pass -/

/-- What this device last saw on disk at a path. -/
structure LocalState where
  size : ℕ
  modifiedUnix : ℕ
  contentHash : Id
  deriving DecidableEq

def LocalState.probablyMatches (state : LocalState) (size modifiedUnix : ℕ) : Bool :=
  state.size = size && state.modifiedUnix = modifiedUnix

/-- What the scan says about one file. -/
structure DiskFile where
  size : ℕ
  modifiedUnix : ℕ
  deriving DecidableEq

/-- What one pass did. -/
structure Report where
  imported : List Path := []
  exported : List Path := []
  removedFromStore : List Path := []
  deletedFromDisk : List Path := []
  keptBoth : List (Path × Path) := []
  recorded : ℕ := 0
  failed : List (Path × FolderError) := []
  heldDeletions : ℕ := 0
  renamedHere : List (Path × Path) := []
  renamedElsewhere : List (Path × Path) := []
  deriving DecidableEq

/-- The content each touched path had. -/
structure Contents where
  goneHere : List (Path × Id) := []
  cameHere : List (Path × Id) := []
  goneElsewhere : List (Path × Id) := []
  cameElsewhere : List (Path × Id) := []
  deriving DecidableEq

/-- What a pass does not control. -/
structure Machine where
  /-- Where the folder is. -/
  root : Loc Str
  pid : ℕ
  /-- The longest path, in names below the root, that the system opens. -/
  deepest : ℕ
  /-- The time at each call. -/
  clock : ℕ → ℕ
  /-- What else happens on the disk before each call. -/
  meanwhile : ℕ → Tree Str Bytes → Tree Str Bytes
  /-- The random id a flush draws. -/
  segmentId : ObjectId

structure World (K : Crypto) where
  tree : Tree Str Bytes
  /-- The locations reached so far. -/
  reached : List (Loc Str)
  /-- The calls made so far. -/
  tick : ℕ
  store : Store K
  /-- The ledger, which the store keeps. -/
  ledger : Table Path LocalState
  /-- How many staging names have been handed out. -/
  counter : ℕ
  report : Report
  contents : Contents

abbrev Act (K : Crypto) : Type → Type := ExceptT FolderError (StateM (World K))

variable {K : Crypto} {α : Type}

/-- A call to the file system. -/
def onDisk (m : Machine) (call : Tree Str Bytes → Reply Str Bytes α) :
    Act K (Except IoError α) := fun w =>
  let reply := call (m.meanwhile w.tick w.tree)
  (.ok reply.value,
    { w with tree := reply.tree, reached := w.reached ++ reply.reached, tick := w.tick + 1 })

/-- The value of a call, or its failure as the folder's. -/
def orFail (names : List Str) : Except IoError α → Act K α
  | .ok value => pure value
  | .error error => throw (.io names error)

/-- A call to the store. -/
def onStore (m : Machine) (call : ℕ → Store K → Store K × Except StoreError α) : Act K α := fun w =>
  let (st, result) := call (m.clock w.tick) w.store
  (result.mapError .store, { w with store := st })

def setLocalState (path : Path) (state : LocalState) : Act K Unit :=
  modify fun w => { w with ledger := w.ledger.insert path state }

def clearLocalState (path : Path) : Act K Unit :=
  modify fun w => { w with ledger := w.ledger.erase path }

/-- Report what was done. -/
def note (f : Report → Report) : Act K Unit := modify fun w => { w with report := f w.report }

def noteContent (f : Contents → Contents) :
    Act K Unit := modify fun w => { w with contents := f w.contents }

/-- The length of a file. -/
def size : Node Str Bytes → ℕ
  | .file content _ => content.length
  | _ => 0

/-- The modification time of a file. -/
def modifiedUnix : Node Str Bytes → ℕ
  | .file _ modified => modified
  | _ => 0

/-! ### Scanning -/

/-- One entry of a directory: links are skipped, directories walked, files taken in. -/
def walkEntry (m : Machine) (walk : List Str → Table Path DiskFile → Act K (Table Path DiskFile))
    (directory : List Str) (out : Table Path DiskFile) (name : Str) : Act K (Table Path DiskFile) := do
  match ← onDisk m (symlinkMetadata m.root (directory ++ [name])) with
  | .error .notFound => pure out
  | .error error => throw (.io (directory ++ [name]) error)
  | .ok (.link _ _) => pure out
  | .ok .dir => if name = stagingDir then pure out else walk (directory ++ [name]) out
  | .ok (.file content modified) =>
    match toLogical (directory ++ [name]) with
    | none => pure out
    | some logical => pure (out.insert logical ⟨content.length, modified⟩)

/-- Walk a directory, so many levels down at most. -/
def walk (m : Machine) : ℕ → List Str → Table Path DiskFile → Act K (Table Path DiskFile)
  | 0, directory, _ => throw (.io directory .nameTooLong)
  | levels + 1, directory, out => do
    let entries ← orFail directory (← onDisk m (readDir m.root directory))
    entries.foldlM (walkEntry m (walk m levels) directory) out

/-- Every file to sync. -/
def scan (m : Machine) : Act K (Table Path DiskFile) := do
  match ← onDisk m (metadata m.root []) with
  | .ok .dir => walk m m.deepest [] ∅
  | _ => throw .noFolder

/-! ### The marker -/

/-- The text of an identifier. -/
def toHex (id : Id) :
    Str := (List.range 64).map fun i => Nat.digitChar (id.val / 2 ^ (252 - 4 * i) % 16)

/-- The bytes of a text of one-byte characters. -/
def asciiBytes (text : Str) : Bytes := text.map fun c => UInt8.ofNat c.toNat

/-- The low six bits of a byte that continues a character. -/
def continuation (b : UInt8) :
    Option ℕ := if 0x80 ≤ b.toNat ∧ b.toNat < 0xc0 then some (b.toNat - 0x80) else none

/-- The character of a code point that needs as many bytes as it was given. -/
def charOf (least n : ℕ) :
    Option Char := if least ≤ n ∧ n.isValidChar then some (Char.ofNat n) else none

/-- The text of bytes in UTF-8. -/
def fromUtf8 : Bytes → Option Str
  | [] => some []
  | a :: rest =>
    if a.toNat < 0x80 then (fromUtf8 rest).map (Char.ofNat a.toNat :: ·)
    else if a.toNat < 0xe0 then
      match rest with
      | b :: rest => do
        let c ← charOf 0x80 ((a.toNat - 0xc0) * 64 + (← continuation b))
        (fromUtf8 rest).map (c :: ·)
      | _ => none
    else if a.toNat < 0xf0 then
      match rest with
      | b :: b' :: rest => do
        let c ← charOf 0x800 ((a.toNat - 0xe0) * 4096 + (← continuation b) * 64 + (← continuation b'))
        (fromUtf8 rest).map (c :: ·)
      | _ => none
    else
      match rest with
      | b :: b' :: b'' :: rest => do
        let c ← charOf 0x10000 ((a.toNat - 0xf0) * 262144 + (← continuation b) * 4096 +
          (← continuation b') * 64 + (← continuation b''))
        (fromUtf8 rest).map (c :: ·)
      | _ => none

/-- Unicode's white space. -/
def isWhitespace (c : Char) : Bool :=
  (9 ≤ c.toNat && c.toNat ≤ 13) || (0x2000 ≤ c.toNat && c.toNat ≤ 0x200a) ||
    [0x20, 0x85, 0xa0, 0x1680, 0x2028, 0x2029, 0x202f, 0x205f, 0x3000].contains c.toNat

def trim (text : Str) : Str := ((text.dropWhile isWhitespace).reverse.dropWhile isWhitespace).reverse

/-- What a folder's marker file says. -/
inductive Marker
  | ours
  | foreign (named : Str)
  | missing
  deriving DecidableEq

/-- What the content of the marker file says to a device. -/
def markerOf (device : DeviceId) (content : Bytes) : Marker :=
  match fromUtf8 content with
  | none => .missing
  | some text => if trim text = toHex device then .ours else .foreign (trim text)

def readMarker (m : Machine) (device : DeviceId) : Act K Marker := do
  match ← onDisk m (Files.read m.root [marker]) with
  | .error _ => pure .missing
  | .ok content => pure (markerOf device content)

/-- Write the marker, if that can be done. -/
def writeMarker (m : Machine) (device : DeviceId) : Act K Unit := do
  let now := m.clock (← get).tick
  let _ ← onDisk m (Files.write now m.root [marker] (asciiBytes (toHex device)))

/-- Whether this directory is the synced folder, or where its storage was mounted. -/
def checkStorage (m : Machine) (found : Table Path DiskFile) : Act K Unit := do
  let device := (← get).store.device
  match ← readMarker m device with
  | .ours => pure ()
  | .foreign named => throw (.foreign named)
  | .missing =>
    let known := (← get).ledger.toList.map Prod.fst
    if known.isEmpty then writeMarker m device
    else if known.any fun path => (found[path]?).isSome then writeMarker m device
    else throw (.unmounted known.length)

/-! ### Deletions -/

/-- Fewer deletions than this are never held. -/
def deletionsAlwaysAllowed : ℕ := 5

/-- Whether a pass may write the deletions it finds. -/
inductive Deletions
  | apply
  | applyWhateverTheCount
  deriving DecidableEq

/-- How many files of the ledger the scan did not find. -/
def vanished (ledger : Table Path LocalState) (found : Table Path DiskFile) : ℕ :=
  ledger.toList.countP fun r => (found[r.1]?).isNone

/-- The count of deletions, if it is too many to do without somebody looking. -/
def deletionsAreTooMany (ledger : Table Path LocalState) (found : Table Path DiskFile) : Option ℕ :=
  if deletionsAlwaysAllowed < vanished ledger found ∧ ledger.toList.length <
      vanished ledger found * 2 then
    some (vanished ledger found)
  else none

/-! ### One path -/

/-- Record what is now on disk. -/
def record (m : Machine) (path : Path) (real : List Str) (hash : Id) : Act K Unit := do
  let node ← orFail real (← onDisk m (metadata m.root real))
  setLocalState path ⟨size node, modifiedUnix node, hash⟩

/-- The content hash of a file on disk, or `none` if there is none. -/
def hashOnDisk (m : Machine) (real : List Str) (ledger : Option LocalState)
    (deep : Bool) : Act K (Option Id) := do
  match ← onDisk m (symlinkMetadata m.root real) with
  | .error .notFound => pure none
  | .error error => throw (.io real error)
  | .ok (.link _ _) => pure none
  | .ok .dir => pure none
  | .ok (.file content modified) =>
    match ledger.filter fun state => !deep && state.probablyMatches content.length modified with
    | some state => pure (some state.contentHash)
    | none =>
      let content ← orFail real (← onDisk m (Files.read m.root real))
      pure (some (K.contentHash content))

/-- Take a file from disk into the store. -/
def importFile (m : Machine) (path : Path) (real : List Str) : Act K Unit := do
  let content ← orFail real (← onDisk m (Files.read m.root real))
  onStore m fun _ st => st.checkRoom path content.length
  let entry ← onStore m fun now st => st.writeStream path [.data content] now
  record m path real entry.contentHash

/-- The name of a staging file. -/
def partName (pid n : ℕ) : Str := Nat.toDigits 10 pid ++ '-' :: Nat.toDigits 10 n ++ ".part".toList

/-- A unique name in the staging directory. -/
def stagingPath (m : Machine) : Act K (List Str) := do
  orFail [stagingDir] (← onDisk m (createDirAll m.root [stagingDir]))
  let w ← get
  modify fun w => { w with counter := w.counter + 1 }
  pure [stagingDir, partName m.pid w.counter]

/-- Remove a staging file, if that can be done. -/
def discard (m : Machine) (temporary : List Str) : Act K Unit := do
  let _ ← onDisk m (Files.removeFile m.root temporary)

/-- Write a file. -/
def fill (m : Machine) (names : List Str) (content : Bytes) : Act K Unit := do
  let now := m.clock (← get).tick
  orFail names (← onDisk m (Files.write now m.root names content))

/-- Move a staging file into place. -/
def moveInto (m : Machine) (temporary real : List Str) : Act K Unit := do
  match ← onDisk m (rename m.root temporary real) with
  | .ok () => pure ()
  | .error error =>
    discard m temporary
    throw (.io real error)

/-- Write a file out of the store: to a staging file, and in place once it is known to be right. -/
def exportFile (m : Machine) (path : Path) (real : List Str) : Act K Unit := do
  orFail real.dropLast (← onDisk m (createDirAll m.root real.dropLast))
  let temporary ← stagingPath m
  fill m temporary []
  match (← get).store.readFile path with
  | .error error =>
    discard m temporary
    throw (.store error)
  | .ok none => discard m temporary
  | .ok (some bytes) =>
    fill m temporary bytes
    moveInto m temporary real
    match (← get).store.stat path with
    | .error error => throw (.store error)
    | .ok none => throw (.other real "vanished")
    | .ok (some entry) => record m path real entry.contentHash

/-- Copy a file within the folder. -/
def copyAside (m : Machine) (source target : List Str) : Act K Unit := do
  orFail target.dropLast (← onDisk m (createDirAll m.root target.dropLast))
  let temporary ← stagingPath m
  let now := m.clock (← get).tick
  match ← onDisk m (copy now m.root source temporary) with
  | .error error =>
    discard m temporary
    throw (.io source error)
  | .ok () => moveInto m temporary target

/-- Remove directories left empty, up to the root: the names of each, last one first. -/
def pruneEmptyParents (m : Machine) : List Str → Act K Unit
  | [] => pure ()
  | name :: above => do
    match ← onDisk m (removeDir m.root (name :: above).reverse) with
    | .error _ => pure ()
    | .ok () => pruneEmptyParents m above

def deleteFromDisk (m : Machine) (real : List Str) : Act K Unit := do
  match ← onDisk m (Files.removeFile m.root real) with
  | .ok () => pruneEmptyParents m real.dropLast.reverse
  | .error .notFound => pure ()
  | .error error => throw (.io real error)

/-- Where the local version of a conflict goes. -/
def sibling (path : Path) (hash : Id) : Path := withMarker path ("local-".toList ++ short hash)

/-- Copy the local version aside and write the store's version out. -/
def keepBoth (m : Machine) (path : Path) (real : List Str) (diskHash : Option Id) : Act K Path := do
  match diskHash with
  | none => throw (.other real "a conflict was reported for a file that is not on disk")
  | some hash =>
    match toFilesystem (sibling path hash) with
    | .error error => throw error
    | .ok siblingReal =>
      copyAside m real siblingReal
      importFile m (sibling path hash) siblingReal
      exportFile m path real
      pure (sibling path hash)

/-- What a decision about a path does. -/
def act (m : Machine) (hold : Bool) (path : Path) (real : List Str)
    (diskHash storeHash ledgerHash : Option Id) :
    Act K Unit := do
  let with' := fun hash : Option Id => (hash.map fun hash => (path, hash)).toList
  match decide diskHash storeHash ledgerHash with
  | .nothing => pure ()
  | .recordOnly =>
    match diskHash with
    | some hash => record m path real hash
    | none => clearLocalState path
    note fun r => { r with recorded := r.recorded + 1 }
  | .importFile =>
    importFile m path real
    note fun r => { r with imported := r.imported ++ [path] }
    noteContent fun c => { c with cameHere := c.cameHere ++ with' diskHash }
  | .removeFromStore =>
    if hold then pure ()
    else
      let _ ← onStore m fun now st => st.removeFile path now
      clearLocalState path
      note fun r => { r with removedFromStore := r.removedFromStore ++ [path] }
      noteContent fun c => { c with goneHere := c.goneHere ++ with' ledgerHash }
  | .exportFile =>
    exportFile m path real
    note fun r => { r with exported := r.exported ++ [path] }
    noteContent fun c => { c with cameElsewhere := c.cameElsewhere ++ with' storeHash }
  | .deleteFromDisk =>
    deleteFromDisk m real
    clearLocalState path
    note fun r => { r with deletedFromDisk := r.deletedFromDisk ++ [path] }
    noteContent fun c => { c with goneElsewhere := c.goneElsewhere ++ with' ledgerHash }
  | .keepBoth =>
    let sibling ← keepBoth m path real diskHash
    note fun r => { r with keptBoth := r.keptBoth ++ [(path, sibling)] }

/-- The hash the store has at a path; a path it refuses has none. -/
def storeHash (st : Store K) (path : Path) : Option Id :=
  match st.stat path with
  | .ok (some entry) => some entry.contentHash
  | _ => none

/-- Bring disk and store into agreement about one path. -/
def reconcileOne (m : Machine) (deep hold : Bool) (path : Path) : Act K Unit := do
  let w ← get
  match toFilesystem path with
  | .error error => throw error
  | .ok real =>
    let diskHash ← hashOnDisk m real w.ledger[path]? deep
    act m hold path real diskHash (storeHash w.store path) (w.ledger[path]?.map LocalState.contentHash)

/-- The elements of a list in order, each once. -/
def inOrder {κ : Type} [Ord κ] [Std.TransOrd κ] (xs : List κ) : List κ :=
  (xs.foldl (fun set x => set.insert x ()) (∅ : Table κ Unit)).toList.map Prod.fst

/-! ### Renames in the report -/

/-- The one path of a list with that content, if there is exactly one. -/
def onlyWith (hash : Id) (list : List (Path × Id)) : Option Path :=
  match list.filter fun r => r.2 = hash with
  | [(path, _)] => some path
  | _ => none

/-- The pairs of a path that went and a path that came with the same bytes, where nothing else
has them. -/
def pairRenames (K : Crypto) (gone came : List (Path × Id)) (live : Id → ℕ) : List (Path × Path) :=
  let pairs := (inOrder (gone.map Prod.snd)).filterMap fun hash =>
    if hash = K.contentHash [] ∨ 1 < live hash then none
    else
      match onlyWith hash gone, onlyWith hash came with
      | some source, some target => some (toLex (source, target))
      | _, _ => none
  (inOrder pairs).map ofLex

def Contents.couldPair (c : Contents) : Bool :=
  (!c.goneHere.isEmpty && !c.cameHere.isEmpty) ||
    (!c.goneElsewhere.isEmpty && !c.cameElsewhere.isEmpty)

/-! ### A pass -/

/-- Every path any of the three views knows. -/
def knownPaths (found : Table Path DiskFile) (st : Store K)
    (ledger : Table Path LocalState) : List Path :=
  inOrder (found.toList.map Prod.fst ++ st.tree.files.toList.map Prod.fst ++
    ledger.toList.map Prod.fst)

/-- One path of a pass: a failure is reported, and the pass goes on. -/
def reconcileNext (m : Machine) (deep hold : Bool) (path : Path) : Act K Unit :=
  tryCatch (reconcileOne m deep hold path) fun error =>
    note fun r => { r with failed := r.failed ++ [(path, error)] }

/-- Say which deletions and additions are renames. -/
def noteRenames : Act K Unit := do
  let w ← get
  if w.contents.couldPair then
    let live := fun hash => w.store.tree.files.toList.countP fun r => r.2.contentHash = hash
    note fun r => { r with
      renamedHere := pairRenames K w.contents.goneHere w.contents.cameHere live
      renamedElsewhere := pairRenames K w.contents.goneElsewhere w.contents.cameElsewhere live }

/-- Whether this pass holds the deletions it finds, and how many they are. -/
def heldCount (deletions : Deletions) (ledger : Table Path LocalState)
    (found : Table Path DiskFile) : Option ℕ :=
  match deletions with
  | .applyWhateverTheCount => none
  | .apply => deletionsAreTooMany ledger found

/-- A pass, once the folder is known to be there. -/
def reconcileFound (m : Machine) (deep : Bool) (deletions : Deletions) (found : Table Path DiskFile) :
    Act K Report := do
  let w ← get
  let hold := heldCount deletions w.ledger found
  note fun r => { r with heldDeletions := hold.getD 0 }
  (knownPaths found w.store w.ledger).forM (reconcileNext m deep hold.isSome)
  noteRenames
  let _ ← onStore m fun _ st => st.flushSegment m.segmentId
  pure (← get).report

/-- Bring disk and store into agreement. -/
def reconcileWith (m : Machine) (deep : Bool) (deletions : Deletions) : Act K Report := do
  modify fun w => { w with report := {}, contents := {} }
  let found ← scan m
  checkStorage m found
  reconcileFound m deep deletions found

def reconcile (m : Machine) (deep : Bool) : Act K Report := reconcileWith m deep .apply

def reconcileConfirmed (m : Machine) (deep : Bool) :
    Act K Report := reconcileWith m deep .applyWhateverTheCount

end Folder
end Itsanas
