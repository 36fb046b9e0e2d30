/-
# The drive folder

`itsanas-drive/src/writes.rs` and `keep_changes` of `itsanas-drive/src/bin/itsanas-drive.rs`: on
Windows an account is shown as a folder, and what is saved, deleted or renamed in it is to reach the
account. The system reports each act as it happens. A report waits until nothing further happened
for a while (`Settling`), a wave of deletions is refused (`Deletions`), and what is left is a few
calls on the account for each change (`callsOf`): keep a file from the disk, copy a file of the
account, remove one.

By then the disk may have moved on. A call that fails is tried again later, behind everything that
waits by then.

The account is what it is to the folder: a map from paths to contents. Any call on it may fail for
reasons of its own (`refuses`).
-/
import Itsanas.Folder
import Itsanas.Lib.Walk

namespace Itsanas
namespace Drive

open Walk

/-- How far back `Deletions` counts. -/
def deletionWindowSecs : ℕ := 3600

/-- How many times a change is tried. -/
def maxTries : ℕ := 5

/-! ### Reports and changes -/

/-- What a report means for the account. -/
inductive Change
  | written (path : Path)
  | deleted (path : Path)
  | renamed (origin destination : Path)
  deriving DecidableEq

/-- Whether a file with this path belongs in the account at all. -/
def mayKeep (path : Path) : Bool :=
  let name := ((rsplit '/' path).elim path Prod.snd).map Char.toLower
  !(name.isEmpty || "~$".toList.isPrefixOf name || ".~lock".toList.isPrefixOf name ||
    (rsplit '.' name).any (fun parts =>
      parts.2 = "tmp".toList || parts.2 = "crdownload".toList || parts.2 = "partial".toList) ||
    name = "desktop.ini".toList || name = "thumbs.db".toList)

/-! ### Waiting -/

/-- Changes waiting for their path to go quiet, in the order they happened. -/
structure Settling where
  waiting : List (Change × ℕ)

namespace Settling

/-- Whether a new change makes a waiting one needless. -/
def supersedes (change before : Change) : Bool :=
  match change with
  | .written path | .deleted path => before = .written path
  | .renamed _ _ => false

/-- Add a change. A file written again waits again, and a file deleted needs no write that came
before it read. -/
def push (s : Settling) (change : Change) (now : ℕ) : Settling :=
  ⟨(s.waiting.filter fun r => !supersedes change r.1) ++ [(change, now)]⟩

end Settling

/-! ### Waves of deletions -/

/-- The deletions of the last hour, to tell a person from a wave. -/
structure Deletions where
  recent : List ℕ

namespace Deletions

/-- Whether `count` more deletions may go ahead on an account that holds `known` files now, and note
them if so. -/
def allow (d : Deletions) (count known now : ℕ) : Deletions × Bool :=
  -- a save deletes nothing
  if count = 0 then (d, true)
  else
    let recent := d.recent.filter fun before => now - before < deletionWindowSecs
    let total := recent.length + count
    let held := known + recent.length
    if Folder.deletionsAlwaysAllowed < total ∧ held < total * 2 then (⟨recent⟩, false)
    else (⟨recent ++ List.replicate count now⟩, true)

end Deletions

/-! ### What a change does -/

/-- Whether `candidate` is `path` or under it. -/
def isOrUnder (candidate path : Path) : Bool :=
  path.isPrefixOf candidate && (candidate.length = path.length || candidate[path.length]? = some '/')

/-- How many of the account's files a change would delete. -/
def deletedBy (change : Change) (known : List Path) : ℕ :=
  match change with
  | .written _ => 0
  | .deleted path => known.countP fun k => isOrUnder k path
  | .renamed origin _ => known.countP fun k => isOrUnder k origin

/-- What is asked of the account. -/
inductive Call
  | keep (path : Path)
  | remove (path : Path)
  | copy (source target : Path)
  deriving DecidableEq

/-- Where a rename takes a file. -/
def movedTo (origin destination file : Path) : Path := destination ++ file.drop origin.length

/-- The calls of one file's rename. Copied before it is removed, so a failure loses nothing. -/
def moveCalls (origin destination file : Path) : List Call :=
  let target := movedTo origin destination file
  if mayKeep target then [.copy file target, .remove file] else [.remove file]

/-- What applying a change asks of the account, in order. -/
def callsOf (change : Change) (known : List Path) : List Call :=
  match change with
  | .written path => if mayKeep path then [.keep path] else []
  | .deleted path => (known.filter fun k => isOrUnder k path).map .remove
  | .renamed origin destination =>
    let moved := known.filter fun k => isOrUnder k origin
    -- not in the account: a scratch file becoming the real one; the bytes are on the disk
    (if moved.isEmpty && mayKeep destination then [.keep destination] else []) ++
      moved.flatMap (moveCalls origin destination)

/-- Why a call failed. -/
inductive IoError
  | notFound
  | unsupported
  | other
  deriving DecidableEq

/-- Whether trying again can help. -/
def worthRetrying (error : IoError) : Bool := error ≠ .unsupported

/-- What is on the disk below the folder's root. -/
structure Disk where
  files : Table Path Bytes
  directories : Table Path Unit

/-- Every name on the way from a directory down to a file may be kept. -/
def keptBelow (directory file : Path) : Bool :=
  (file.inits.filter fun p =>
    directory.length < p.length && (p = file || file[p.length]? = some '/')).all mayKeep

/-- The files of a directory that are kept with it. -/
def Disk.below (disk : Disk) (directory : Path) : List Path :=
  disk.files.keys.filter fun file => isOrUnder file directory && file ≠
    directory && keptBelow directory file

abbrev Account : Type := Table Path Bytes

/-- Read a file from the disk into the account. -/
def keepFile (disk : Disk) (refuses : Call → Bool) (account : Account) (path : Path) :
    Account × Option IoError :=
  match disk.files[path]? with
  | none => (account, some .notFound)
  | some bytes =>
      if refuses (.keep path) then (account, some .other) else (account.insert path bytes, none)

/-- One call on the account. -/
def perform (disk : Disk) (refuses : Call → Bool) (account : Account) : Call → Account × Option IoError
  | .keep path =>
    if (disk.directories[path]?).isSome then walk (keepFile disk refuses) account (disk.below path)
    else keepFile disk refuses account path
  | .remove path =>
    if refuses (.remove path) then (account, some .other)
    else if (account[path]?).isSome then (account.erase path, none)
    else (account, some .unsupported)
  | .copy source target =>
    match account[source]? with
    | none => (account, some .notFound)
    | some bytes =>
      if refuses (.copy source target) then (account,
        some .other) else (account.insert target bytes, none)

/-- Every path the account has. -/
def known (account : Account) : List Path := account.keys

/-- Apply one change to the account; what was done before an error stays done. -/
def apply (disk : Disk) (refuses : Call → Bool) (change : Change) (account : Account) :
    Account × Option IoError :=
  walk (perform disk refuses) account (callsOf change (known account))

/-! ### The loop -/

/-- What the loop prints about a change. -/
inductive Saying
  | refused (change : Change)
  | kept (change : Change)
  | notKept (change : Change) (error : IoError)
  deriving DecidableEq

/-- The state of the loop, with the account it works on. -/
structure Keeper where
  account : Account
  settling : Settling
  deletions : Deletions
  tries : Change → ℕ
  said : List Saying

namespace Change

def isRename : Change → Bool
  | renamed _ _ => true
  | _ => false

/-- A scratch file: written, and not to be kept. -/
def isScratch : Change → Bool
  | written path => !mayKeep path
  | _ => false

end Change

/-- Whether the guard lets a change go ahead. A rename is not asked about. -/
def goAhead (k : Keeper) (change : Change) (now : ℕ) : Deletions × Bool :=
  if change.isRename then (k.deletions, true)
  else k.deletions.allow (deletedBy change (known k.account)) (known k.account).length now

/-- Apply a change that may go ahead, and try it again later if that can help. -/
def attempt (disk : Disk) (refuses : Call → Bool) (now : ℕ) (k : Keeper) (change : Change) : Keeper :=
  match apply disk refuses change k.account with
  | (account, none) =>
    { k with
      account := account
      tries := Function.update k.tries change 0
      said := if change.isScratch then k.said else k.said ++ [.kept change] }
  | (account, some error) =>
    if k.tries change + 1 < maxTries ∧ worthRetrying error then
      { k with
        account := account
        settling := k.settling.push change now
        tries := Function.update k.tries change (k.tries change + 1) }
    else
      { k with
        account := account
        tries := Function.update k.tries change 0
        said := k.said ++ [.notKept change error] }

/-- A change whose time has come. -/
def process (disk : Disk) (refuses : Call → Bool) (now : ℕ) (k : Keeper) (change : Change) : Keeper :=
  match goAhead k change now with
  | (deletions, false) => { k with deletions := deletions, said := k.said ++ [.refused change] }
  | (deletions, true) => attempt disk refuses now { k with deletions := deletions } change

/-- The loop at its start. -/
def Keeper.new (account : Account) : Keeper := ⟨account, ⟨[]⟩, ⟨[]⟩, fun _ => 0, []⟩

/-! ### Paths under a path -/

theorem isOrUnder_iff {candidate path : Path} :
    isOrUnder candidate path = true ↔ candidate = path ∨ ∃ rest, candidate = path ++ '/' :: rest := by
  unfold isOrUnder
  rw [Bool.and_eq_true, List.isPrefixOf_iff_prefix]
  constructor
  · rintro ⟨⟨rest, rfl⟩, h⟩
    cases rest with
    | nil => exact .inl (List.append_nil _)
    | cons c rest =>
      refine .inr ⟨rest, ?_⟩
      have hc : c = '/' := by simpa using h
      rw [hc]
  · rintro (rfl | ⟨rest, rfl⟩)
    · exact ⟨List.prefix_rfl, by simp⟩
    · exact ⟨List.prefix_append _ _, by simp⟩

theorem mem_known {account : Account} {path : Path} :
    path ∈ known account ↔ (account[path]?).isSome := by
  rw [known, Std.ExtTreeMap.mem_keys, Std.ExtTreeMap.isSome_getElem?_iff_mem]

theorem nodup_known (account : Account) : (known account).Nodup := Std.ExtTreeMap.nodup_keys

end Drive
end Itsanas
