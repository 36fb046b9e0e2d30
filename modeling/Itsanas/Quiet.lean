/-
# The folder's operations on a quiet disk

What a pass works with is a `View`: the contents of the files other than its own staging files, the
hashes the store has and the hashes the ledger has. On a disk that nothing else changes, and
where no link is on the way to a path, each operation of a pass either takes the view to one that
its name says, or leaves it and fails; and it reaches no location outside the folder.

`Sees r m D v w` is what is carried along: the tree of `w` is tame, all locations reached are below
the root, and the view of `w` is `v`. The rules `r` say which staging files the view leaves out.
-/
import Itsanas.Contents
import Itsanas.Folder

namespace Itsanas
namespace Folder

open Files Effects

/-! ### Views -/

/-- Nothing but the pass changes the disk. -/
def Machine.Quiet (m : Machine) : Prop := ∀ tick t, m.meanwhile tick t = t

def Machine.staging (m : Machine) : Loc Str := m.root ++ [stagingDir]

/-- The location of the staging file with a number. -/
def Machine.part (m : Machine) (n : ℕ) : Loc Str := m.staging ++ [partName m.pid n]

/-- What a pass is held to, besides finding no link in its way: which staging files it may use,
what it may copy aside from where to where, and where it may write or remove the file of a path. -/
structure Rules where
  stage : Loc Str → Bool
  aside : Tree Str Bytes → Loc Str → Loc Str → Bool
  replace : Loc Str → Bool

/-- The locations of the staging files that a pass may use. -/
def Machine.Stages (m : Machine) (r : Rules) (loc : Loc Str) :
    Prop := r.stage loc = true ∧ ∃ n, loc = m.part n

open Classical in
/-- Contents, without those of the staging files. -/
noncomputable def hide (r : Rules) (m : Machine) (f : Loc Str → Option Bytes) :
    Loc Str → Option Bytes := fun loc =>
  if m.Stages r loc then none else f loc

/-- What the disk, the store and the ledger have. -/
@[ext] structure View where
  disk : Loc Str → Option Bytes
  store : Path → Option Id
  ledger : Path → Option Id

namespace View

/-- The view with a content at a location, or none. -/
noncomputable def setDisk (r : Rules) (m : Machine) (loc : Loc Str) (c : Option Bytes)
    (v : View) : View :=
  { v with disk := hide r m (put v.disk loc c) }

def setStore (path : Path) (hash : Option Id) (v : View) : View :=
  { v with store := Function.update v.store path hash }

def setLedger (path : Path) (hash : Option Id) (v : View) : View :=
  { v with ledger := Function.update v.ledger path hash }

end View

/-- The hash the ledger has at a path. -/
def ledgerHash (ledger : Table Path LocalState) (path : Path) : Option Id :=
  ledger[path]?.map LocalState.contentHash

variable {K : Crypto} {r : Rules} {m : Machine} {D : Loc Str → Prop} {v : View} {w : World K}
  {α : Type}

noncomputable def view (r : Rules) (m : Machine) (w : World K) : View :=
  ⟨hide r m (Files.content w.tree), storeHash w.store, ledgerHash w.ledger⟩

@[simp] theorem hide_hide (f : Loc Str → Option Bytes) : hide r m (hide r m f) = hide r m f := by
  funext loc
  unfold hide
  split_ifs <;> rfl

theorem hide_put_hide (f : Loc Str → Option Bytes) (loc : Loc Str) (c : Option Bytes) :
    hide r m (put (hide r m f) loc c) = hide r m (put f loc c) := by
  funext loc'
  unfold hide
  split_ifs with h
  · rfl
  · by_cases heq : loc' = loc
    · subst heq
      simp
    · simp [put_of_ne heq, h]

variable {loc : Loc Str}

/-- What happens to a staging file is not seen. -/
theorem hide_put_staged {f : Loc Str → Option Bytes} (h : m.Stages r loc) (c : Option Bytes) :
    hide r m (put f loc c) = hide r m f := by
  funext loc'
  unfold hide
  split_ifs with h'
  · rfl
  · rw [put_of_ne]
    rintro rfl
    exact h' h

/-! ### What is carried along -/

/-- The tree is tame, the pass has stayed below the root, and its view is `v`. -/
structure Sees (r : Rules) (m : Machine) (D : Loc Str → Prop) (v : View) (w : World K) : Prop where
  tame : Tame D m.root w.tree
  inside : ∀ loc ∈ w.reached, m.root <+: loc
  view : view r m w = v

/-- No link is at a location. -/
def plainAt (t : Tree Str Bytes) (loc : Loc Str) : Bool := t[loc]?.all fun node => !node.isLink

theorem plainAt_iff {t : Tree Str Bytes} :
    plainAt t loc = true ↔ ∀ node, t[loc]? = some node → node.isLink = false := by
  simp [plainAt, Option.all_eq_true]

/-- Where there is no link. -/
def Plain (w : World K) (loc : Loc Str) : Prop := plainAt w.tree loc = true

theorem Sees.plain (h : Sees r m D v w) (hloc : D loc) : Plain w loc :=
  plainAt_iff.mpr fun node => h.tame.plain loc node hloc

/-- What a world shows now, it shows wherever it has no link. -/
theorem Sees.now (h : Sees r m D v w) : Sees r m (Plain w) v w :=
  ⟨⟨h.tame.rooted, fun _ node hloc => plainAt_iff.mp hloc node⟩, h.inside, h.view⟩

theorem Sees.weaken {D' : Loc Str → Prop} (h : Sees r m D' v w)
    (hD : ∀ loc, D loc → D' loc) : Sees r m D v w :=
  ⟨⟨h.tame.rooted, fun loc node hloc => h.tame.plain loc node (hD loc hloc)⟩, h.inside, h.view⟩

/-- The world after a call. -/
def afterCall (m : Machine) (call : Tree Str Bytes → Reply Str Bytes α) (w : World K) : World K :=
  let reply := call (m.meanwhile w.tick w.tree)
  { w with tree := reply.tree, reached := w.reached ++ reply.reached, tick := w.tick + 1 }

variable {E : FolderError → World K → Prop}

theorem holds_onDisk {call : Tree Str Bytes → Reply Str Bytes α}
    {Q : Except IoError α → World K → Prop}
    :
    Holds (onDisk m call) w Q E ↔ Q (call (m.meanwhile w.tick w.tree)).value (afterCall m call w) :=
  Iff.rfl

variable {names : List Str}

theorem holds_orFail {result : Except IoError α} {Q : α → World K → Prop}
    : Holds (orFail names result) w Q E ↔
      (∀ value, result = .ok value → Q value w) ∧ ∀ error, result = .error error →
        E (.io names error) w := by
  cases result with
  | ok value => simp [orFail]
  | error error => simp [orFail]

theorem tree_afterCall (hq : m.Quiet) (call : Tree Str Bytes → Reply Str Bytes α) :
    (afterCall m call w).tree = (call w.tree).tree := by
  unfold afterCall
  rw [hq]

/-- A call that leaves contents `f` leaves the view with `f` on disk. -/
theorem Sees.call (hq : m.Quiet) (h : Sees r m D v w) {call : Tree Str Bytes → Reply Str Bytes α}
    {f : Loc Str → Option Bytes} (hleft : Left D m.root (call w.tree) f) :
    Sees r m D { v with disk := hide r m f } (afterCall m call w) := by
  have hreply : call (m.meanwhile w.tick w.tree) = call w.tree := by rw [hq]
  refine ⟨?_, fun loc hloc => ?_, ?_⟩
  · rw [tree_afterCall hq]
    exact hleft.tame
  · unfold afterCall at hloc
    rw [hreply] at hloc
    exact (List.mem_append.mp hloc).elim (h.inside loc) (hleft.inside loc)
  · rw [← h.view]
    unfold Folder.view
    rw [tree_afterCall hq, hleft.contents]
    rfl

theorem Sees.disk (h : Sees r m D v w) :
    hide r m (Files.content w.tree) = v.disk := congrArg View.disk h.view

/-- A call that changes no content leaves the view. -/
theorem Sees.call_same (hq : m.Quiet) (h : Sees r m D v w) {call : Tree Str Bytes → Reply Str Bytes α}
    (hleft : Left D m.root (call w.tree) (Files.content w.tree)) :
    Sees r m D v (afterCall m call w) := by
  have hsees := h.call hq hleft
  rwa [h.disk] at hsees

/-- A call that changes the content at one location. -/
theorem Sees.call_update (hq : m.Quiet) (h : Sees r m D v w)
    {call : Tree Str Bytes → Reply Str Bytes α}
    {c : Option Bytes} (hleft : Left D m.root (call w.tree) (put (Files.content w.tree) loc c)) :
    Sees r m D (v.setDisk r m loc c) (afterCall m call w) := by
  have hsees := h.call hq hleft
  rwa [← hide_put_hide, h.disk] at hsees

/-- What a reading call reports is below the root. -/
theorem Sees.call_look (hq : m.Quiet) (h : Sees r m D v w) {call : Tree Str Bytes → Reply Str Bytes α}
    {value : Except IoError α} (hreply : call w.tree = ⟨value, w.tree, [m.root ++ names]⟩) :
    Sees r m D v (afterCall m call w) :=
  h.call_same hq (by rw [hreply]; exact ⟨inside_singleton, h.tame, rfl⟩)

theorem Sees.call_refused (hq : m.Quiet) (h : Sees r m D v w)
    {call : Tree Str Bytes → Reply Str Bytes α}
    {error : IoError} (hreply : call w.tree = refuse w.tree error) :
    Sees r m D v (afterCall m call w) :=
  h.call_same hq (by rw [hreply]; exact h.tame.refused error)

/-! ### Staging -/

/-- The staging directory and the staging file with a number are in `D`, and the rules allow the
file. -/
structure Cleared (r : Rules) (m : Machine) (D : Loc Str → Prop) (n : ℕ) : Prop where
  directory : D m.staging
  part : D (m.part n)
  allowed : r.stage (m.part n) = true

/-- Names of a staging file that a pass may use. -/
structure Staged (r : Rules) (m : Machine) (D : Loc Str → Prop) (names : List Str) : Prop where
  named : ∃ n, names = [stagingDir, partName m.pid n]
  stages : m.Stages r (m.root ++ names)
  directory : D m.staging
  here : D (m.root ++ names)

theorem Cleared.staged {n : ℕ} (h : Cleared r m D n) :
    Staged r m D [stagingDir, partName m.pid n] := by
  have hpart : m.root ++ [stagingDir, partName m.pid n] =
    m.part n := by simp [Machine.part, Machine.staging]
  refine ⟨⟨n, rfl⟩, ?_, h.directory, ?_⟩
  · rw [hpart]
    exact ⟨h.allowed, n, rfl⟩
  · rw [hpart]
    exact h.part

theorem Staged.ne_nil (h : Staged r m D names) : names ≠ [] := by
  obtain ⟨n, rfl⟩ := h.named
  simp

theorem Staged.way (h : Staged r m D names) : Way D m.root names := by
  obtain ⟨n, rfl⟩ := h.named
  intro front back hnames hfront hback
  have hfront : front = [stagingDir] := by
    match front, back with
    | [_], _ => simpa using (List.cons.inj hnames).1.symm
    | [], _ => exact absurd rfl hfront
    | _ :: _ :: rest, back =>
      simp only [List.cons_append, List.cons.injEq] at hnames
      exact absurd (List.append_eq_nil_iff.mp hnames.2.2.symm).2 hback
  rw [hfront]
  exact h.directory

theorem setDisk_staged (h : Staged r m D names) (c : Option Bytes) (hv : hide r m v.disk = v.disk) :
    v.setDisk r m (m.root ++ names) c = v := by
  unfold View.setDisk
  rw [hide_put_staged h.stages, hv]

theorem Sees.hide_disk (h : Sees r m D v w) : hide r m v.disk = v.disk := by rw [← h.disk, hide_hide]

/-- The directories of a path, and all above them, are in `D`. -/
def Straight (m : Machine) (D : Loc Str → Prop) (names : List Str) :
    Prop := names ≠ [] ∧ Way D m.root names

/-- The directories above a path are made, and no file is changed. -/
theorem createParents_left (h : Sees r m D v w) (hnames : Straight m D names) :
    Left D m.root (createDirAll m.root names.dropLast w.tree) (Files.content w.tree) := by
  refine createDirAll_left h.tame fun front back hfront hne => ?_
  refine hnames.2 front (back ++ [names.getLast hnames.1]) ?_ hne (by simp)
  rw [← List.append_assoc, ← hfront, List.dropLast_append_getLast]

variable {c : Bytes}

section
variable (hq : m.Quiet)
include hq

theorem stagingPath_holds (h : Sees r m D v w) (hD : Cleared r m D w.counter) :
    Holds (stagingPath m) w
      (fun temporary w' => Staged r m D temporary ∧ Files.content w'.tree = Files.content w.tree ∧
        Sees r m D v w')
      fun _ w' => Sees r m D v w' := by
  have hleft : Left D m.root (createDirAll m.root [stagingDir] w.tree) (Files.content w.tree) := by
    refine createDirAll_left h.tame fun front back hfront hne => ?_
    match front, back with
    | [], _ => exact absurd rfl hne
    | name :: rest, back =>
      obtain ⟨rfl, hrest⟩ := List.cons.inj hfront
      rw [(List.append_eq_nil_iff.mp hrest.symm).1]
      exact hD.directory
  have hmade := h.call_same hq hleft
  unfold stagingPath
  simp only [holds_bind, holds_onDisk, holds_orFail, holds_get, holds_modify, holds_pure]
  refine ⟨fun _ _ => ⟨hD.staged, ?_, hmade.tame, hmade.inside, hmade.view⟩, fun _ _ => hmade⟩
  exact (congrArg Files.content (tree_afterCall hq _)).trans hleft.contents

theorem fill_holds (h : Sees r m D v w) {temporary : List Str} (ht : Staged r m D temporary)
    (bytes : Bytes) :
    Holds (fill m temporary bytes) w
      (fun _ w' => Files.content w'.tree (m.root ++ temporary) = some bytes ∧ Sees r m D v w')
      fun _ w' => Sees r m D v w' := by
  unfold fill
  simp only [holds_bind, holds_get, holds_onDisk, holds_orFail, hq _ _]
  rcases write_left h.tame ht.ne_nil ht.way ht.here (m.clock w.tick) bytes with
    ⟨hok, hleft⟩ | ⟨⟨error, herror⟩, hleft⟩
  · rw [hok]
    refine ⟨fun _ _ => ⟨?_, ?_⟩, (by simp)⟩
    · rw [tree_afterCall hq, hleft.contents, put_self]
    · rw [← setDisk_staged ht (some bytes) h.hide_disk]
      exact h.call_update hq hleft
  · rw [herror]
    exact ⟨(by simp), fun _ _ => h.call_same hq hleft⟩

theorem discard_holds (h : Sees r m D v w) {temporary : List Str} (ht : Staged r m D temporary)
    : Holds (discard m temporary) w (fun _ w' => Sees r m D v w') E := by
  unfold discard
  simp only [holds_bind, holds_onDisk, holds_pure]
  rcases removeFile_left h.tame ht.way with ⟨_, hleft⟩ | ⟨_, _, hleft⟩
  · rw [← setDisk_staged ht none h.hide_disk]
    exact h.call_update hq hleft
  · exact h.call_same hq hleft

/-- A staging file goes where it is to go, or away. -/
theorem moveInto_holds (h : Sees r m D v w) {temporary real : List Str} (ht : Staged r m D temporary)
    (hreal : Straight m D real) (hc : Files.content w.tree (m.root ++ temporary) = some c) :
    Holds (moveInto m temporary real) w
      (fun _ w' => Files.content w'.tree (m.root ++ real) = some c ∧
        Sees r m D (v.setDisk r m (m.root ++ real) (some c)) w')
      fun _ w' => Sees r m D v w' := by
  unfold moveInto
  simp only [holds_bind, holds_onDisk, hq _ _]
  rcases rename_left h.tame hc hreal.1 hreal.2 with ⟨hok, hleft⟩ | ⟨⟨error, herror⟩, hleft⟩
  · rw [hok]
    simp only [holds_pure]
    refine ⟨?_, ?_⟩
    · rw [tree_afterCall hq, hleft.contents, put_self]
    · have hsees := h.call hq hleft
      rwa [← hide_put_hide, hide_put_staged ht.stages, h.disk] at hsees
  · rw [herror]
    simp only [holds_bind, holds_throw]
    exact discard_holds hq (h.call_same hq hleft) ht

end

/-! ### The ledger and the store -/

theorem ledgerHash_insert (ledger : Table Path LocalState) (path : Path) (state : LocalState) :
    ledgerHash (ledger.insert path state) =
      Function.update (ledgerHash ledger) path (some state.contentHash) := by
  funext path'
  unfold ledgerHash
  rw [Table.getElem?_insert']
  by_cases heq : path = path'
  · subst heq
    simp
  · rw [if_neg heq, Function.update_of_ne (Ne.symm heq)]

theorem ledgerHash_erase (ledger : Table Path LocalState) (path : Path) :
    ledgerHash (ledger.erase path) = Function.update (ledgerHash ledger) path none := by
  funext path'
  unfold ledgerHash
  rw [Table.getElem?_erase']
  by_cases heq : path = path'
  · subst heq
    simp
  · rw [if_neg heq, Function.update_of_ne (Ne.symm heq)]

theorem clearLocalState_holds (h : Sees r m D v w) (path : Path) :
    Holds (clearLocalState path) w (fun _ w' => Sees r m D (v.setLedger path none) w') E := by
  refine ⟨h.tame, h.inside, ?_⟩
  rw [← h.view]
  exact View.ext rfl rfl (ledgerHash_erase _ _)

variable {real : List Str}

/-- What is on disk is recorded. -/
theorem record_holds (hq : m.Quiet) (h : Sees r m D v w) (path : Path)
    (hc : Files.content w.tree (m.root ++ real) = some c) (hash : Id) :
    Holds (record m path real hash) w (fun _ w' => Sees r m D (v.setLedger path (some hash)) w')
      E := by
  obtain ⟨modified, hnode⟩ := content_eq_some.mp hc
  have hfound := metadata_found h.tame _ hnode rfl
  have hlook := h.call_look hq hfound
  unfold record
  simp only [holds_bind, holds_onDisk, holds_orFail, hq _ _, hfound]
  refine ⟨fun _ _ => ⟨hlook.tame, hlook.inside, ?_⟩, (by simp)⟩
  rw [← hlook.view]
  exact View.ext rfl rfl (ledgerHash_insert _ _ _)

/-- The hash of a row. -/
def rowHash : Row → Option Id
  | .file entry => some entry.contentHash
  | _ => none

variable {path : Path} {st : Store K}

theorem storeHash_eq (hvalid : validate path = .ok ()) :
    storeHash st path = rowHash (st.row path) := by
  unfold storeHash Store.stat
  rw [hvalid]
  cases hfile : st.getFile path with
  | some entry => rw [Store.getFile_eq_some.mp hfile]; rfl
  | none =>
    cases hrow : st.row path with
    | file entry =>
      rw [Store.getFile_eq_some.mpr hrow] at hfile
      cases hfile
    | absent => rfl
    | gone tombstone => rfl

theorem storeHash_of_invalid {error : StoreError}
    (h : validate path = .error error) : storeHash st path = none := by
  unfold storeHash Store.stat
  rw [h]

variable {hash : Id}

theorem stat_of_storeHash (h : storeHash st path = some hash) :
    ∃ entry, st.stat path = .ok (some entry) ∧ entry.contentHash = hash := by
  unfold storeHash at h
  split at h
  · rename_i entry hstat
    exact ⟨entry, hstat, Option.some.inj h⟩
  · cases h

/-- What can be read has the hash the store says; and what has a hash is not missing. -/
theorem readFile_hash (h : storeHash st path = some hash)
    {found : Option Bytes} (hread : st.readFile path = .ok found) :
    ∃ bytes, found = some bytes ∧ K.contentHash bytes = hash := by
  obtain ⟨entry, hstat, hentry⟩ := stat_of_storeHash h
  unfold Store.stat at hstat
  unfold Store.readFile at hread
  cases hvalid : validate path with
  | error error =>
    rw [hvalid] at hstat
    cases hstat
  | ok _ =>
    rw [hvalid] at hstat hread
    rw [Except.ok.inj hstat] at hread
    dsimp only at hread
    cases hchunks : Store.readChunks K st.blobs entry.chunks with
    | error error =>
      rw [hchunks] at hread
      cases hread
    | ok bytes =>
      rw [hchunks] at hread
      dsimp only at hread
      split_ifs at hread with hlength hhash
      cases hread
      exact ⟨bytes, rfl, by rw [← hentry]; exact not_not.mp hhash⟩

theorem storeHash_of_row {st st' : Store K} (h : st'.row = st.row) : storeHash st' = storeHash st := by
  funext path
  cases hvalid : validate path with
  | ok _ => rw [storeHash_eq hvalid, storeHash_eq hvalid, h]
  | error error => rw [storeHash_of_invalid hvalid, storeHash_of_invalid hvalid]

/-- A changed row changes the hash at its path and no other. -/
theorem storeHash_of_update {st st' : Store K} {row : Row} (hvalid : validate path = .ok ())
    (h : st'.row = Function.update st.row path row) :
    storeHash st' = Function.update (storeHash st) path (rowHash row) := by
  funext path'
  by_cases heq : path' = path
  · subst heq
    rw [Function.update_self, storeHash_eq hvalid, h, Function.update_self]
  · rw [Function.update_of_ne heq]
    cases hvalid' : validate path' with
    | ok _ => rw [storeHash_eq hvalid', storeHash_eq hvalid', h, Function.update_of_ne heq]
    | error error => rw [storeHash_of_invalid hvalid', storeHash_of_invalid hvalid']

theorem checkRoom_unmoved (st : Store K) (path : Path) (incoming : ℕ) :
    Unmoved st (st.checkRoom path incoming).1 := by
  unfold Store.checkRoom
  cases hbudget : st.budget with
  | none => exact .rfl
  | some budget =>
    have hunmoved : Unmoved st (st.accountBesides path budget).1 :=
      ⟨st.sameNode_localBytes, st.row_localBytes⟩
    dsimp only
    split <;> exact hunmoved

theorem holds_onStore {call : ℕ → Store K → Store K × Except StoreError α} {Q : α → World K → Prop}
    : Holds (onStore m call) w Q E ↔
      (∀ a, (call (m.clock w.tick) w.store).2 = .ok a →
        Q a { w with store := (call (m.clock w.tick) w.store).1 }) ∧
      ∀ error, (call (m.clock w.tick) w.store).2 = .error error →
        E (.store error) { w with store := (call (m.clock w.tick) w.store).1 } := by
  unfold Holds onStore
  rcases call (m.clock w.tick) w.store with ⟨st, error | a⟩
  · simp [Except.mapError]
  · simp [Except.mapError]

theorem Sees.withStore (h : Sees r m D v w) (hrow : st.row = w.store.row) :
    Sees r m D v { w with store := st } :=
  ⟨h.tame, h.inside, by rw [← h.view]; exact View.ext rfl (storeHash_of_row hrow) rfl⟩

theorem Sees.withStore_update (h : Sees r m D v w) {row : Row}
    (hvalid : validate path = .ok ()) (hrow : st.row = Function.update w.store.row path row) :
    Sees r m D (v.setStore path (rowHash row)) { w with store := st } :=
  ⟨h.tame, h.inside, by rw [← h.view]; exact View.ext rfl (storeHash_of_update hvalid hrow) rfl⟩

/-! ### The operations of a pass -/

/-- There is no link at the end of a path. -/
def Firm (m : Machine) (w : World K) (names : List Str) : Prop :=
  ∀ node, w.tree[m.root ++ names]? = some node → node.isLink = false

theorem Firm.of_content (h : Files.content w.tree (m.root ++ names) = some c) :
    Firm m w names := by
  obtain ⟨modified, hnode⟩ := content_eq_some.mp h
  intro node hnode'
  rw [hnode] at hnode'
  cases hnode'
  rfl

theorem checkRoom_holds (h : Sees r m D v w) (path : Path) (incoming : ℕ) :
    Holds (onStore m fun _ st => st.checkRoom path incoming) w
      (fun _ w' => w'.tree = w.tree ∧ Sees r m D v w')
      fun _ w' => Sees r m D v w' := by
  have hroom := h.withStore (checkRoom_unmoved w.store path incoming).row
  rw [holds_onStore]
  exact ⟨fun _ _ => ⟨rfl, hroom⟩, fun _ _ => hroom⟩

/-- A write puts its content's hash into the store, or nothing happens. -/
theorem writeStream_holds (h : Sees r m D v w) (path : Path) (c : Bytes) :
    Holds (onStore m fun now st => st.writeStream path [.data c] now) w
      (fun entry w' => entry.contentHash = K.contentHash c ∧ w'.tree = w.tree ∧
        Sees r m D (v.setStore path (some (K.contentHash c))) w')
      fun _ w' => Sees r m D v w' := by
  rw [holds_onStore]
  rcases Store.writeStream_cases w.store path [.data c] (m.clock w.tick) with
    ⟨st, error, hwrite, hunmoved⟩ | ⟨st, entry, hwrite, hvalid, hlogged, -⟩
  · rw [hwrite]
    exact ⟨(by simp), fun _ _ => h.withStore hunmoved.row⟩
  · rw [hwrite]
    refine ⟨?_, (by simp)⟩
    rintro _ ⟨⟩
    obtain ⟨bytes, hbytes, hhash⟩ := writeStream_contentHash hwrite
    have hsame : bytes = c := by
      cases c with
      | nil => simpa [Itsanas.content] using hbytes.symm
      | cons b bs => simpa [Itsanas.content] using hbytes.symm
    rw [hsame] at hhash
    refine ⟨hhash, rfl, ?_⟩
    rw [← hhash]
    exact h.withStore_update hvalid hlogged.row

/-- A file comes into the store and the ledger with its content, or nothing happens. -/
theorem importFile_holds (hq : m.Quiet) (h : Sees r m D v w) (path : Path)
    (hreal : Straight m D real) (hfirm : Firm m w real) :
    Holds (importFile m path real) w
      (fun _ w' => ∃ c, Files.content w.tree (m.root ++ real) = some c ∧
        Sees r m D
          ((v.setStore path (some (K.contentHash c))).setLedger path (some (K.contentHash c))) w')
      fun _ w' => Sees r m D v w' := by
  unfold importFile
  simp only [holds_bind, holds_onDisk, holds_orFail, hq _ _]
  rcases read_cases h.tame hreal.2 hfirm with ⟨c, hc, heq⟩ | ⟨_, error, heq⟩
  · have htree : (afterCall m (Files.read m.root real) w).tree = w.tree := by
      rw [tree_afterCall hq, heq]
    rw [heq]
    refine ⟨?_, (by simp)⟩
    rintro _ ⟨⟩
    refine (checkRoom_holds (h.call_look hq heq) path c.length).mono ?_ fun _ _ hw => hw
    rintro - w₁ ⟨htree₁, h₁⟩
    refine (writeStream_holds h₁ path c).mono ?_ fun _ _ hw => hw
    rintro entry w₂ ⟨hhash, htree₂, h₂⟩
    have hc₂ : Files.content w₂.tree (m.root ++ real) = some c := by
      rw [htree₂, htree₁, htree]
      exact hc
    rw [hhash]
    exact (record_holds hq h₂ path hc₂ _).mono (fun _ _ hw => ⟨c, hc, hw⟩) fun _ _ hw => hw
  · rw [heq]
    exact ⟨(by intros; contradiction), fun _ _ => h.call_refused hq heq⟩

section
variable (hq : m.Quiet)
include hq

/-- The store's version comes to the disk and the ledger, or nothing happens. -/
theorem exportFile_holds (h : Sees r m D v w) (hreal : Straight m D real)
    (hD : (createDirAll m.root real.dropLast w.tree).value = .ok () → Cleared r m D w.counter)
    (hstore : v.store path = some hash) :
    Holds (exportFile m path real) w
      (fun _ w' => ∃ bytes, K.contentHash bytes = hash ∧
        Sees r m D ((v.setDisk r m (m.root ++ real) (some bytes)).setLedger path (some hash)) w')
      fun _ w' => Sees r m D v w' := by
  have hhash : ∀ {v' : View} {w' : World K}, Sees r m D v' w' → v'.store path = some hash →
      storeHash w'.store path = some hash := fun hw hv => by
    rw [← hv, ← hw.view]
    rfl
  unfold exportFile
  simp only [holds_bind, holds_onDisk, holds_orFail, hq _ _]
  have hparents := h.call_same hq (createParents_left h hreal)
  refine ⟨fun _ hmade => ?_, fun _ _ => hparents⟩
  refine (stagingPath_holds hq hparents (hD hmade)).mono ?_ fun _ _ hw => hw
  rintro temporary w₁ ⟨ht, -, h₁⟩
  refine (fill_holds hq h₁ ht []).mono ?_ fun _ _ hw => hw
  rintro - w₂ ⟨-, h₂⟩
  rw [holds_get]
  cases hread : w₂.store.readFile path with
  | error error =>
    simp only [holds_bind, holds_throw]
    exact discard_holds hq h₂ ht
  | ok found =>
    obtain ⟨bytes, rfl, hbytes⟩ := readFile_hash (hhash h₂ hstore) hread
    simp only [holds_bind]
    refine (fill_holds hq h₂ ht bytes).mono ?_ fun _ _ hw => hw
    rintro - w₃ ⟨hc, h₃⟩
    refine (moveInto_holds hq h₃ ht hreal hc).mono ?_ fun _ _ hw => hw
    rintro - w₄ ⟨hc, h₄⟩
    obtain ⟨entry, hstat, hentry⟩ := stat_of_storeHash (hhash h₄ hstore)
    rw [holds_get, hstat]
    dsimp only
    rw [hentry]
    exact (record_holds hq h₄ path hc hash).mono (fun _ _ hw => ⟨bytes, hbytes, hw⟩) fun _ _ hw => hw

/-- A file is copied to another place of the folder, or nothing happens. -/
theorem copyAside_holds (h : Sees r m D v w) {source target : List Str}
    (hsource : Straight m D source) (htarget : Straight m D target)
    (hD : (createDirAll m.root target.dropLast w.tree).value = .ok () → Cleared r m D w.counter)
    (hc : Files.content w.tree (m.root ++ source) = some c) :
    Holds (copyAside m source target) w
      (fun _ w' => Files.content w'.tree (m.root ++ target) = some c ∧
        Sees r m D (v.setDisk r m (m.root ++ target) (some c)) w')
      fun _ w' => Sees r m D v w' := by
  have hparents := createParents_left h htarget
  unfold copyAside
  simp only [holds_bind, holds_onDisk, holds_orFail, hq _ _]
  refine ⟨fun _ hmade => ?_, fun _ _ => h.call_same hq hparents⟩
  refine (stagingPath_holds hq (h.call_same hq hparents) (hD hmade)).mono ?_ fun _ _ hw => hw
  rintro temporary w₁ ⟨ht, hsame, h₁⟩
  have hc₁ : Files.content w₁.tree (m.root ++ source) = some c := by
    rw [hsame, tree_afterCall hq, hparents.contents]
    exact hc
  simp only [holds_get]
  rcases copy_left h₁.tame hsource.2 (Firm.of_content hc₁) ht.ne_nil ht.way ht.here
    (m.clock w₁.tick) with ⟨c', hc', hok, hleft⟩ | ⟨⟨error, herror⟩, hleft⟩
  · obtain rfl : c = c' := Option.some.inj (hc₁.symm.trans hc')
    rw [hok]
    have h₂ := h₁.call_update hq hleft
    rw [setDisk_staged ht _ h₁.hide_disk] at h₂
    have hc₂ : Files.content (afterCall m (copy (m.clock w₁.tick) m.root source temporary) w₁).tree
        (m.root ++ temporary) = some c := by
      rw [tree_afterCall hq, hleft.contents, put_self]
    exact moveInto_holds hq h₂ ht htarget hc₂
  · rw [herror]
    simp only [holds_bind, holds_throw]
    exact discard_holds hq (h₁.call_same hq hleft) ht

end

/-- Directories left empty go, up to the first that is not. -/
theorem pruneEmptyParents_holds (hq : m.Quiet) : ∀ {back : List Str} {w : World K},
    Sees r m D v w → Way D m.root back.reverse →
      Holds (pruneEmptyParents m back) w (fun _ w' => Sees r m D v w') E
  | [], w, h, _ => h
  | name :: above, w, h, hway => by
    have hleft := h.call_same hq (removeDir_left h.tame hway)
    unfold pruneEmptyParents
    simp only [holds_bind, holds_onDisk]
    split
    · exact hleft
    · refine pruneEmptyParents_holds hq hleft fun front back hfront hne hback => ?_
      refine hway front (back ++ [name]) ?_ hne (by simp)
      rw [List.reverse_cons, hfront, List.append_assoc]

theorem setDisk_absent (hv : hide r m v.disk = v.disk) (h : v.disk loc = none) :
    v.setDisk r m loc none = v := by
  unfold View.setDisk
  rw [put_eq_self h, hv]

/-- A file goes from the disk, or nothing happens. -/
theorem deleteFromDisk_holds (hq : m.Quiet) (h : Sees r m D v w) (hreal : Straight m D real) :
    Holds (deleteFromDisk m real) w (fun _ w' => Sees r m D (v.setDisk r m (m.root ++ real) none) w')
      fun _ w' => Sees r m D v w' := by
  unfold deleteFromDisk
  simp only [holds_bind, holds_onDisk, hq _ _]
  rcases removeFile_left h.tame hreal.2 with ⟨hok, hleft⟩ | ⟨⟨error, herror⟩, habsent, hleft⟩
  · rw [hok]
    refine pruneEmptyParents_holds hq (h.call_update hq hleft) ?_
    rw [List.reverse_reverse]
    intro front back hfront hne hback
    refine hreal.2 front (back ++ [real.getLast hreal.1]) ?_ hne (by simp)
    rw [← List.append_assoc, ← hfront, List.dropLast_append_getLast]
  · have hsame := h.call_same hq hleft
    have hv : v.disk (m.root ++ real) = none := by
      rw [← h.disk, hide, habsent, ite_self]
    rw [herror, setDisk_absent h.hide_disk hv]
    cases error <;> exact hsame

/-! ### Looking at a path -/

/-- Nothing but the locations reached and the calls made has changed. -/
structure Looked (w w' : World K) : Prop where
  tree : w'.tree = w.tree
  store : w'.store = w.store
  ledger : w'.ledger = w.ledger
  report : w'.report = w.report

theorem Looked.refl (w : World K) : Looked w w := ⟨rfl, rfl, rfl, rfl⟩

theorem Looked.trans {w w' w'' : World K} (h : Looked w w') (h' : Looked w' w'') : Looked w w'' :=
  ⟨h'.tree.trans h.tree, h'.store.trans h.store, h'.ledger.trans h.ledger, h'.report.trans h.report⟩

theorem looked_of_tree (hq : m.Quiet) (call : Tree Str Bytes → Reply Str Bytes α)
    (htree : (call w.tree).tree = w.tree) : Looked w (afterCall m call w) :=
  ⟨(tree_afterCall hq call).trans htree, rfl, rfl, rfl⟩

/-- The hash a look at a file comes to: its own, or without a closer look the ledger's. -/
def Shows (K : Crypto) (deep : Bool) (ledger : Option LocalState) (c : Bytes) (hash : Id) : Prop :=
  hash = K.contentHash c ∨ deep = false ∧ ledger.map LocalState.contentHash = some hash

/-- A look finds the file that is there. -/
theorem hashOnDisk_holds (hq : m.Quiet) (h : Sees r m D v w) (hreal : Straight m D real)
    (ledger : Option LocalState) (deep : Bool) :
    Holds (hashOnDisk m real ledger deep) w
      (fun found w' => Looked w w' ∧ Sees r m D v w' ∧
        ((found = none ∧ Files.content w.tree (m.root ++ real) = none) ∨
          ∃ c hash, Files.content w.tree (m.root ++ real) = some c ∧ found = some hash ∧
            Shows K deep ledger c hash))
      fun _ w' => Looked w w' ∧ Sees r m D v w' ∧ Files.content w.tree (m.root ++ real) = none := by
  unfold hashOnDisk
  simp only [holds_bind, holds_onDisk, hq _ _]
  rcases symlinkMetadata_cases h.tame hreal.2 with ⟨node, hnode, heq⟩ | ⟨hnone, error, heq⟩
  · have hlooked : Looked w (afterCall m (symlinkMetadata m.root real) w) :=
      looked_of_tree hq _ (by rw [heq])
    have hsees := h.call_look hq heq
    have hcontent : Files.content w.tree (m.root ++ real) =
      node.content? := by rw [Files.content, hnode]; rfl
    rw [heq, hcontent]
    cases node with
    | dir => exact ⟨hlooked, hsees, .inl ⟨rfl, rfl⟩⟩
    | link absolute target => exact ⟨hlooked, hsees, .inl ⟨rfl, rfl⟩⟩
    | file c modified =>
      dsimp only
      split
      · rename_i state hstate
        obtain ⟨hledger, hmatches⟩ := Option.filter_eq_some_iff.mp hstate
        refine ⟨hlooked, hsees, .inr ⟨c, _, rfl, rfl, .inr ⟨?_, by rw [hledger]; rfl⟩⟩⟩
        simp only [Bool.and_eq_true, Bool.not_eq_true'] at hmatches
        exact hmatches.1
      · have hread := read_found hsees.tame
          (hlooked.tree ▸ hcontent : Files.content _ (m.root ++ real) = some c)
        simp only [holds_bind, holds_onDisk, holds_orFail, hq _ _, hread]
        refine ⟨?_, (by simp)⟩
        rintro _ ⟨⟩
        exact ⟨hlooked.trans (looked_of_tree hq _ (by rw [hread])), hsees.call_look hq hread,
          .inr ⟨c, _, rfl, rfl, .inl rfl⟩⟩
  · have hlooked : Looked w (afterCall m (symlinkMetadata m.root real) w) :=
      looked_of_tree hq _ (by rw [heq]; rfl)
    have hsees := h.call_refused hq heq
    have hcontent : Files.content w.tree (m.root ++ real) = none := by rw [Files.content, hnone]; rfl
    rw [heq, hcontent]
    cases error <;> first | exact ⟨hlooked, hsees, .inl ⟨rfl, rfl⟩⟩ | exact ⟨hlooked, hsees, rfl⟩

end Folder
end Itsanas
