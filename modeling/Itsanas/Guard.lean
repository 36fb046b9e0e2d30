/-
# How much a pass can delete

A pass removes a file from the store in one place only: where the ledger knows the path, the
store has what the ledger has, and a look at the disk finds no file. Everything else a pass does,
whatever the disk answers, removes nothing (`Folder.Keeps`).

The guard counts, before anything is removed, the files of the ledger that the scan did not find,
and holds all deletions if they are too many. The looks come later. If the disk still has, when
the pass comes to it, what the scan found there and what the pass itself has put there
(`Folder.steady`), then only files that were counted can be removed, and their number is bounded
(`Folder.reconcile_bounded`). A disk that goes away between the scan and the looks takes every
file of the account with it (`Folder.unmounted_after_scan`).
-/
import Itsanas.Steps
import Itsanas.Symbolic

namespace Itsanas
namespace Folder

open Files Effects

variable {K : Crypto} {m : Machine} {α β : Type}

/-! ### What only touches the disk -/

/-- The store, the ledger and the report are as they were. -/
structure DiskOnly (w w' : World K) : Prop where
  store : w'.store = w.store
  ledger : w'.ledger = w.ledger
  report : w'.report = w.report

instance instReflDiskOnly : Std.Refl (DiskOnly (K := K)) := ⟨fun _ => ⟨rfl, rfl, rfl⟩⟩

instance instTransDiskOnly : IsTrans (World K) DiskOnly :=
  ⟨fun _ _ _ h h' => ⟨h'.store.trans h.store, h'.ledger.trans h.ledger, h'.report.trans h.report⟩⟩

theorem onDisk_diskOnly (call : Tree Str Bytes → Reply Str Bytes α) :
    Respects DiskOnly (onDisk (K := K) m call) :=
  fun _ => ⟨rfl, rfl, rfl⟩

theorem orFail_diskOnly (names : List Str) (result : Except IoError α) :
    Respects DiskOnly (orFail (K := K) names result) := by
  cases result with
  | ok value => exact respects_pure value
  | error error => exact respects_throw _

theorem walkEntry_diskOnly {walk : List Str → Table Path DiskFile → Act K (Table Path DiskFile)}
    (hwalk : ∀ directory out, Respects DiskOnly (walk directory out)) (directory : List Str)
    (out : Table Path DiskFile) (name : Str) :
    Respects DiskOnly (walkEntry m walk directory out name) := by
  refine (onDisk_diskOnly _).bind fun look => ?_
  split
  · exact respects_pure out
  · exact respects_throw _
  · exact respects_pure out
  · split_ifs
    · exact respects_pure out
    · exact hwalk _ _
  · split
    · exact respects_pure out
    · exact respects_pure _

theorem walk_diskOnly : ∀ (levels : ℕ) (directory : List Str) (out : Table Path DiskFile),
    Respects DiskOnly (walk (K := K) m levels directory out)
  | 0, _, _ => respects_throw _
  | levels + 1, directory, out =>
    (onDisk_diskOnly _).bind fun _ => (orFail_diskOnly _ _).bind fun _ =>
      respects_foldlM
        (fun out name _ => walkEntry_diskOnly (walk_diskOnly levels) directory out name) out

theorem scan_diskOnly : Respects DiskOnly (scan (K := K) m) := by
  refine (onDisk_diskOnly _).bind fun look => ?_
  split
  · exact walk_diskOnly _ _ _
  · exact respects_throw _

theorem writeMarker_diskOnly (device : DeviceId) : Respects DiskOnly (writeMarker (K := K) m device) :=
  respects_get.bind fun _ => (onDisk_diskOnly _).bind fun _ => respects_pure _

theorem readMarker_diskOnly (device : DeviceId) :
    Respects DiskOnly (readMarker (K := K) m device) := by
  refine (onDisk_diskOnly _).bind fun content => ?_
  split
  · exact respects_pure _
  · exact respects_pure _

theorem checkStorage_diskOnly (found : Table Path DiskFile) :
    Respects DiskOnly (checkStorage (K := K) m found) := by
  refine respects_get.bind fun w => (readMarker_diskOnly _).bind fun answer => ?_
  split
  · exact respects_pure _
  · exact respects_throw _
  · refine respects_get.bind fun w => ?_
    dsimp only
    split_ifs
    · exact writeMarker_diskOnly _
    · exact writeMarker_diskOnly _
    · exact respects_throw _

theorem hashOnDisk_diskOnly (real : List Str) (ledger : Option LocalState) (deep : Bool) :
    Respects DiskOnly (hashOnDisk (K := K) m real ledger deep) := by
  refine (onDisk_diskOnly _).bind fun look => ?_
  split
  · exact respects_pure _
  · exact respects_throw _
  · exact respects_pure _
  · exact respects_pure _
  · split
    · exact respects_pure _
    · exact (onDisk_diskOnly _).bind fun _ => (orFail_diskOnly _ _).bind fun _ => respects_pure _

theorem stagingPath_diskOnly : Respects DiskOnly (stagingPath (K := K) m) :=
  (onDisk_diskOnly _).bind fun _ => (orFail_diskOnly _ _).bind fun _ => respects_get.bind fun _ =>
    (respects_modify fun _ => ⟨rfl, rfl, rfl⟩).bind fun _ => respects_pure _

theorem discard_diskOnly (temporary : List Str) : Respects DiskOnly (discard (K := K) m temporary) :=
  (onDisk_diskOnly _).bind fun _ => respects_pure _

theorem fill_diskOnly (names : List Str) (content : Bytes) :
    Respects DiskOnly (fill (K := K) m names content) :=
  respects_get.bind fun _ => (onDisk_diskOnly _).bind fun _ => orFail_diskOnly _ _

theorem moveInto_diskOnly (temporary real : List Str) :
    Respects DiskOnly (moveInto (K := K) m temporary real) := by
  refine (onDisk_diskOnly _).bind fun moved => ?_
  split
  · exact respects_pure _
  · exact (discard_diskOnly _).bind fun _ => respects_throw _

theorem copyAside_diskOnly (source target : List Str) :
    Respects DiskOnly (copyAside (K := K) m source target) := by
  refine (onDisk_diskOnly _).bind fun _ => (orFail_diskOnly _ _).bind fun _ =>
      stagingPath_diskOnly.bind fun _ =>
    respects_get.bind fun _ => (onDisk_diskOnly _).bind fun copied => ?_
  split
  · exact (discard_diskOnly _).bind fun _ => respects_throw _
  · exact moveInto_diskOnly _ _

theorem pruneEmptyParents_diskOnly :
    ∀ names : List Str, Respects DiskOnly (pruneEmptyParents (K := K) m names)
  | [] => respects_pure _
  | name :: above => by
    refine (onDisk_diskOnly _).bind fun removed => ?_
    split
    · exact respects_pure _
    · exact pruneEmptyParents_diskOnly above

theorem deleteFromDisk_diskOnly (real : List Str) :
    Respects DiskOnly (deleteFromDisk (K := K) m real) := by
  refine (onDisk_diskOnly _).bind fun removed => ?_
  split
  · exact pruneEmptyParents_diskOnly _
  · exact respects_pure _
  · exact respects_throw _

/-! ### What keeps the files -/

/-- A store further on: a log in order has stayed so, and the files that came have valid paths. -/
structure Onward (st st' : Store K) : Prop where
  device : st'.device = st.device
  log : LogOk st.owner st.device st.index.log → LogOk st'.owner st'.device st'.index.log
  valid : ∀ path, st'.getFile path ≠ none → st.getFile path ≠ none ∨ validate path = .ok ()

theorem Onward.refl (st : Store K) : Onward st st := ⟨rfl, fun h => h, fun _ => .inl⟩

theorem Onward.trans {st st' st'' : Store K} (h : Onward st st')
    (h' : Onward st' st'') : Onward st st'' :=
  ⟨h'.device.trans h.device, fun hl => h'.log (h.log hl), fun path hp =>
    (h'.valid path hp).elim (h.valid path) .inr⟩

/-- No file has gone from the store, and no removal and no failure has been reported. -/
structure Keeps (w w' : World K) : Prop where
  files : ∀ path, w.store.getFile path ≠ none → w'.store.getFile path ≠ none
  removed : w'.report.removedFromStore = w.report.removedFromStore
  failed : w'.report.failed = w.report.failed
  held : w'.report.heldDeletions = w.report.heldDeletions
  onward : Onward w.store w'.store

instance instReflKeeps : Std.Refl (Keeps (K := K)) := ⟨fun _ => ⟨fun _ h => h, rfl, rfl, rfl, .refl _⟩⟩

instance instTransKeeps : IsTrans (World K) Keeps :=
  ⟨fun _ _ _ h h' => ⟨fun path hp => h'.files path (h.files path hp), h'.removed.trans h.removed,
    h'.failed.trans h.failed, h'.held.trans h.held, h.onward.trans h'.onward⟩⟩

theorem DiskOnly.keeps {w w' : World K} (h : DiskOnly w w') : Keeps w w' := by
  refine ⟨fun path hp => ?_, by rw [h.report], by rw [h.report], by rw [h.report], ?_⟩
  · rw [h.store]
    exact hp
  · rw [h.store]
    exact .refl _

theorem keeps_of_diskOnly {a : Act K α} (h : Respects DiskOnly a) : Respects Keeps a :=
  h.mono fun _ _ => DiskOnly.keeps

/-- A call to the store that keeps what it has. -/
theorem onStore_keeps {call : ℕ → Store K → Store K × Except StoreError α}
    (h : ∀ now st, (∀ path, st.getFile path ≠ none → (call now st).1.getFile path ≠ none) ∧
      Onward st (call now st).1) : Respects Keeps (onStore m call) := by
  intro w
  obtain ⟨hfiles, honward⟩ := h (m.clock w.tick) w.store
  rw [holds_onStore]
  exact ⟨fun _ _ => ⟨hfiles, rfl, rfl, rfl, honward⟩, fun _ _ => ⟨hfiles, rfl, rfl, rfl, honward⟩⟩

variable {path : Path}

theorem getFile_ne_none {st : Store K} :
    st.getFile path ≠ none ↔ ∃ entry, st.row path = .file entry := by
  rw [Option.ne_none_iff_exists']
  exact exists_congr fun entry => Store.getFile_eq_some

theorem keeps_of_unmoved {st st' : Store K} (h : Unmoved st st') :
    (∀ path, st.getFile path ≠ none → st'.getFile path ≠ none) ∧ Onward st st' := by
  refine ⟨fun path hp => ?_, h.node.device, fun hl => ?_, fun path hp => .inl ?_⟩
  · rw [getFile_ne_none, h.row]
    exact getFile_ne_none.mp hp
  · rw [h.node.owner, h.node.device, h.node.log]
    exact hl
  · rw [getFile_ne_none, ← h.row]
    exact getFile_ne_none.mp hp

theorem onward_of_logged {st st' : Store K} {e : LogEntry} {row : Row} (h : Logged st st' e)
    (he : e.sequence = st.index.log.next) (hrow : st'.row = Function.update st.row path row)
    (hvalid : validate path = .ok ()) : Onward st st' := by
  refine ⟨h.home.device, fun hl => ?_, fun path' hp => ?_⟩
  · rw [h.home.owner, h.home.device, h.log]
    exact hl.pushPending he
  · by_cases heq : path' = path
    · exact .inr (heq ▸ hvalid)
    · rw [getFile_ne_none, hrow, Function.update_of_ne heq] at hp
      exact .inl (getFile_ne_none.mpr hp)

theorem checkRoom_keeps (path : Path) (incoming : ℕ) :
    Respects Keeps (onStore (K := K) m fun _ st => st.checkRoom path incoming) :=
  onStore_keeps fun _ st => keeps_of_unmoved (checkRoom_unmoved st path incoming)

theorem writeStream_onward (st : Store K) (path : Path) (reader : Reader) (now : ℕ) :
    (∀ path', st.getFile path' ≠ none → (st.writeStream path reader now).1.getFile path' ≠ none) ∧
      Onward st (st.writeStream path reader now).1 := by
  rcases st.writeStream_cases path reader now with
    ⟨st', error, h, hunmoved⟩ | ⟨st', entry, h, hvalid, hlogged, hstamp⟩
  · rw [h]
    exact keeps_of_unmoved hunmoved
  · rw [h]
    have hrow : st'.row = Function.update st.row path (.file entry) := hlogged.row
    refine ⟨fun path' hp => ?_, onward_of_logged hlogged hstamp.sequence hrow hvalid⟩
    rw [getFile_ne_none, hrow]
    by_cases heq : path' = path
    · subst heq
      exact ⟨entry, Function.update_self ..⟩
    · rw [Function.update_of_ne heq]
      exact getFile_ne_none.mp hp

theorem writeStream_keeps (path : Path) (reader : Reader) :
    Respects Keeps (onStore (K := K) m fun now st => st.writeStream path reader now) :=
  onStore_keeps fun now st => writeStream_onward st path reader now

theorem flushSegment_tree (st : Store K) (id : ObjectId) :
    (st.flushSegment id).1.tree = st.tree ∧ (st.flushSegment id).1.device = st.device := by
  unfold Store.flushSegment
  split
  · exact ⟨rfl, rfl⟩
  · split
    · exact ⟨rfl, rfl⟩
    · split
      · exact ⟨rfl, rfl⟩
      · exact ⟨rfl, rfl⟩

theorem flushSegment_keeps (id : ObjectId) :
    Respects Keeps (onStore (K := K) m fun _ st => st.flushSegment id) := by
  refine onStore_keeps fun _ st =>
    ⟨fun path hp => ?_, (flushSegment_tree st id).2, fun hl => ?_, fun path hp => .inl ?_⟩
  · rw [Store.getFile, (flushSegment_tree st id).1]
    exact hp
  · rcases Store.flushSegment_spec hl id with ⟨-, h⟩ | ⟨e, he, h⟩
    · rw [h]
      exact hl
    · rw [h]
      exact hl.appended he
  · rw [Store.getFile, (flushSegment_tree st id).1] at hp
    exact hp

theorem setLocalState_keeps (path : Path) (state : LocalState) :
    Respects Keeps (setLocalState (K := K) path state) :=
  respects_modify fun _ => ⟨fun _ h => h, rfl, rfl, rfl, .refl _⟩

theorem clearLocalState_keeps (path : Path) : Respects Keeps (clearLocalState (K := K) path) :=
  respects_modify fun _ => ⟨fun _ h => h, rfl, rfl, rfl, .refl _⟩

/-- A note about something else. -/
theorem note_keeps {f : Report → Report} (h : ∀ r, (f r).removedFromStore = r.removedFromStore ∧
    (f r).failed = r.failed ∧ (f r).heldDeletions = r.heldDeletions) :
    Respects Keeps (note (K := K) f) :=
  respects_modify fun w => ⟨fun _ h => h, (h w.report).1, (h w.report).2.1, (h w.report).2.2, .refl _⟩

theorem notes_keeps {f : Report → Report} {g : Contents → Contents}
    (h : ∀ r, (f r).removedFromStore = r.removedFromStore ∧ (f r).failed = r.failed ∧
      (f r).heldDeletions = r.heldDeletions) :
    Respects Keeps (note (K := K) f >>= fun _ => noteContent g) :=
  (note_keeps h).bind fun _ => respects_modify fun _ => ⟨fun _ h => h, rfl, rfl, rfl, .refl _⟩

theorem record_keeps (path : Path) (real : List Str) (hash : Id) :
    Respects Keeps (record (K := K) m path real hash) :=
  (keeps_of_diskOnly (onDisk_diskOnly _)).bind fun _ =>
      (keeps_of_diskOnly (orFail_diskOnly _ _)).bind fun _ =>
    setLocalState_keeps _ _

theorem importFile_keeps (path : Path) (real : List Str) :
    Respects Keeps (importFile (K := K) m path real) :=
  (keeps_of_diskOnly (onDisk_diskOnly _)).bind fun _ =>
      (keeps_of_diskOnly (orFail_diskOnly _ _)).bind fun _ =>
    (checkRoom_keeps _ _).bind fun _ => (writeStream_keeps _ _).bind fun _ => record_keeps _ _ _

theorem exportFile_keeps (path : Path) (real : List Str) :
    Respects Keeps (exportFile (K := K) m path real) := by
  refine (keeps_of_diskOnly (onDisk_diskOnly _)).bind fun _ =>
    (keeps_of_diskOnly (orFail_diskOnly _ _)).bind fun _ =>
        (keeps_of_diskOnly stagingPath_diskOnly).bind fun _ =>
    (keeps_of_diskOnly (fill_diskOnly _ _)).bind fun _ => respects_get.bind fun w => ?_
  split
  · exact (keeps_of_diskOnly (discard_diskOnly _)).bind fun _ => respects_throw _
  · exact keeps_of_diskOnly (discard_diskOnly _)
  · refine (keeps_of_diskOnly (fill_diskOnly _ _)).bind fun _ =>
      (keeps_of_diskOnly (moveInto_diskOnly _ _)).bind fun _ => respects_get.bind fun w => ?_
    split
    · exact respects_throw _
    · exact respects_throw _
    · exact record_keeps _ _ _

theorem keepBoth_keeps (path : Path) (real : List Str) (diskHash : Option Id) :
    Respects Keeps (keepBoth (K := K) m path real diskHash) := by
  unfold keepBoth
  split
  · exact respects_throw _
  · split
    · exact respects_throw _
    · exact (keeps_of_diskOnly (copyAside_diskOnly _ _)).bind fun _ =>
        (importFile_keeps _ _).bind fun _ =>
        (exportFile_keeps _ _).bind fun _ => respects_pure _

/-! ### The one place where files go -/

/-- Whether a look at a path finds that there is no file: nothing, a link or a directory. -/
def missing (m : Machine) (t : Tree Str Bytes) (path : Path) : Bool :=
  match (symlinkMetadata m.root (components path) t).value with
  | .error .notFound => true
  | .ok (.link _ _) => true
  | .ok .dir => true
  | _ => false

/-- The file at `path`, which the ledger knows and a look did not find, has gone from the store,
and no other. -/
structure Removes (m : Machine) (hold : Bool) (path : Path) (w w' : World K) : Prop where
  hold : hold = false
  missing : missing m (m.meanwhile w.tick w.tree) path = true
  known : w.ledger[path]? ≠ none
  files : ∀ path', path' ≠ path → w.store.getFile path' ≠ none → w'.store.getFile path' ≠ none
  removed : w'.report.removedFromStore = w.report.removedFromStore ++ [path]
  failed : w'.report.failed = w.report.failed
  held : w'.report.heldDeletions = w.report.heldDeletions
  onward : Onward w.store w'.store

theorem hashOnDisk_missing (path : Path) (ledger : Option LocalState) (deep : Bool) (w : World K) :
    Holds (hashOnDisk m (components path) ledger deep) w
      (fun found _ => found = none → missing m (m.meanwhile w.tick w.tree) path = true) fun _ _ =>
        True := by
  unfold hashOnDisk missing
  simp only [holds_bind, holds_onDisk]
  cases (symlinkMetadata m.root (components path) (m.meanwhile w.tick w.tree)).value with
  | error error => cases error <;> simp [holds_throw]
  | ok node =>
    cases node with
    | dir => simp
    | link absolute target => simp
    | file content modified =>
      dsimp only
      split
      · simp
      · simp only [holds_bind, holds_onDisk, holds_orFail, holds_pure]
        exact ⟨fun _ _ => (by simp), fun _ _ => trivial⟩

/-- What is decided keeps the files of the store, unless it is to remove this one. -/
theorem act_keeps {hold : Bool} (path : Path) (real : List Str) {found inStore ledger : Option Id}
    (h : decide found inStore ledger ≠ .removeFromStore ∨ hold = true) :
    Respects Keeps (act (K := K) m hold path real found inStore ledger) := by
  unfold act
  dsimp only
  cases hdecide : decide found inStore ledger with
  | nothing => exact respects_pure _
  | recordOnly =>
    cases found with
    | some hash => exact (record_keeps _ _ _).bind fun _ => note_keeps fun _ => ⟨rfl, rfl, rfl⟩
    | none => exact (clearLocalState_keeps _).bind fun _ => note_keeps fun _ => ⟨rfl, rfl, rfl⟩
  | importFile =>
    exact (importFile_keeps _ _).bind fun _ => notes_keeps fun _ => ⟨rfl, rfl, rfl⟩
  | removeFromStore =>
    rcases h with h | rfl
    · exact absurd hdecide h
    · exact respects_pure _
  | exportFile =>
    exact (exportFile_keeps _ _).bind fun _ => notes_keeps fun _ => ⟨rfl, rfl, rfl⟩
  | deleteFromDisk =>
    exact (keeps_of_diskOnly (deleteFromDisk_diskOnly _)).bind fun _ => (clearLocalState_keeps _).bind
      fun _ => notes_keeps fun _ => ⟨rfl, rfl, rfl⟩
  | keepBoth =>
    exact (keepBoth_keeps _ _ _).bind fun _ => note_keeps fun _ => ⟨rfl, rfl, rfl⟩

/-- A removal takes out the file at its path, at most. -/
theorem removal_holds (path : Path) (real : List Str) {found inStore ledger : Option Id}
    {w₀ w : World K}
    (hw : DiskOnly w₀ w) (hmissing : missing m (m.meanwhile w₀.tick w₀.tree) path = true)
    (hknown : w₀.ledger[path]? ≠ none) (hdecide : decide found inStore ledger = .removeFromStore) :
    Holds (act m false path real found inStore ledger) w (fun _ w' => Removes m false path w₀ w')
      fun _ w' => Keeps w₀ w' := by
  have hunchanged : ∀ st' : Store K, st' = w.store → Keeps w₀ { w with store := st' } := by
    rintro _ rfl
    exact hw.keeps
  unfold act
  dsimp only
  rw [hdecide]
  simp only [Bool.false_eq_true, if_false, holds_bind]
  rw [holds_onStore]
  rcases w.store.removeFile_cases path (m.clock w.tick) with
    ⟨r, h, -⟩ | ⟨st', tombstone, f, h, hvalid, -, hlogged, hstamp⟩
  · rw [h]
    refine ⟨fun _ _ => ?_, fun _ _ => hunchanged _ rfl⟩
    refine ⟨rfl, hmissing, hknown, fun path' _ hp => ?_, ?_, ?_, ?_, ?_⟩
    · show w.store.getFile path' ≠ none
      rw [hw.store]
      exact hp
    · show w.report.removedFromStore ++ [path] = _
      rw [hw.report]
    · show w.report.failed = _
      rw [hw.report]
    · show w.report.heldDeletions = _
      rw [hw.report]
    · show Onward w₀.store w.store
      rw [hw.store]
      exact .refl _
  · rw [h]
    refine ⟨fun _ _ => ?_, (by simp)⟩
    have hrow : st'.row = Function.update w.store.row path _ := hlogged.row
    refine ⟨rfl, hmissing, hknown, fun path' hne hp => ?_, ?_, ?_, ?_, ?_⟩
    · show st'.getFile path' ≠ none
      rw [getFile_ne_none, hrow, Function.update_of_ne hne, hw.store]
      exact getFile_ne_none.mp hp
    · show w.report.removedFromStore ++ [path] = _
      rw [hw.report]
    · show w.report.failed = _
      rw [hw.report]
    · show w.report.heldDeletions = _
      rw [hw.report]
    · show Onward w₀.store st'
      rw [← hw.store]
      exact onward_of_logged hlogged hstamp.sequence hrow hvalid

/-- **Reconciling a path keeps the files of the store, or removes the one the ledger knows and
the disk does not have.** -/
theorem reconcileOne_removes (deep hold : Bool) (path : Path) (w : World K) :
    Holds (reconcileOne m deep hold path) w (fun _ w' => Keeps w w' ∨ Removes m hold path w w')
      fun _ w' => Keeps w w' := by
  unfold reconcileOne
  rw [holds_bind, holds_get]
  rcases toFilesystem_cases path with ⟨error, herror⟩ | ⟨-, hreal⟩
  · rw [herror]
    exact Std.Refl.refl w
  · rw [hreal]
    simp only [holds_bind]
    refine ((hashOnDisk_diskOnly (components path) w.ledger[path]? deep w).and
      (hashOnDisk_missing path w.ledger[path]? deep w)).mono ?_ fun _ w' hw => hw.1.keeps
    rintro found w' ⟨hw, hmissing⟩
    by_cases hremove : decide found (storeHash w.store path)
      (w.ledger[path]?.map LocalState.contentHash) =
        .removeFromStore ∧ hold = false
    · obtain ⟨hdecide, rfl⟩ := hremove
      have hspec :=
        decide_spec found (storeHash w.store path) (w.ledger[path]?.map LocalState.contentHash)
      rw [hdecide] at hspec
      have hknown : w.ledger[path]? ≠ none := fun hnone => hspec.2.2 (by rw [hnone]; rfl)
      exact (removal_holds path _ hw (hmissing hspec.1) hknown hdecide).mono (fun _ _ h => .inr h)
        fun _ _ h => h
    · have hor : decide found (storeHash w.store path) (w.ledger[path]?.map LocalState.contentHash) ≠
          .removeFromStore ∨ hold = true := by
        rcases not_and_or.mp hremove with h | h
        · exact .inl h
        · exact .inr (by simpa using h)
      exact (act_keeps path _ hor w').mono (fun _ _ h => .inl (IsTrans.trans _ _ _ hw.keeps h))
        fun _ _ h => IsTrans.trans _ _ _ hw.keeps h

/-! ### A whole pass -/

theorem mem_keys {ν : Type} {t : Table Path ν} : path ∈ t.toList.map Prod.fst ↔ t[path]? ≠ none :=
  Table.mem_keys.trans Option.isSome_iff_ne_none

theorem mem_inOrder {xs : List Path} : path ∈ inOrder xs ↔ path ∈ xs := by
  have hfold : ∀ (xs : List Path) (set : Table Path Unit),
      (xs.foldl (fun set x => set.insert x ()) set)[path]? ≠ none ↔ path ∈ xs ∨ set[path]? ≠ none := by
    intro xs
    induction xs with
    | nil => simp
    | cons x xs ih =>
      intro set
      rw [List.foldl_cons, ih, List.mem_cons, Table.getElem?_insert']
      by_cases heq : x = path
      · simp [heq]
      · simp [heq, Ne.symm heq]
  rw [inOrder, mem_keys, hfold]
  simp

theorem nodup_inOrder (xs : List Path) : (inOrder xs).Nodup :=
  List.pairwise_map.mpr (Table.toList_pairwise _)

variable {found : Table Path DiskFile} {ledger : Table Path LocalState}

theorem mem_knownPaths {st : Store K} :
    path ∈ knownPaths found st ledger ↔
      found[path]? ≠ none ∨ st.getFile path ≠ none ∨ ledger[path]? ≠ none := by
  rw [knownPaths, mem_inOrder, List.mem_append, List.mem_append, mem_keys, mem_keys, mem_keys,
    or_assoc]
  rfl

theorem nodup_knownPaths (found : Table Path DiskFile) (st : Store K)
    (ledger : Table Path LocalState) :
    (knownPaths found st ledger).Nodup :=
  nodup_inOrder _

/-- Whether the disk still has, when the pass comes to it, what the scan found there and what the
pass has itself put into the ledger since it started with `ledger`. -/
def steady (m : Machine) (deep hold : Bool) (found : Table Path DiskFile)
    (ledger : Table Path LocalState) :
    List Path → World K → Bool
  | [], _ => true
  | path :: paths, w =>
    ((w.ledger[path]?).isNone || ((found[path]?).isNone && (ledger[path]?).isSome) ||
        !missing m (m.meanwhile w.tick w.tree) path) &&
      steady m deep hold found ledger paths (reconcileNext m deep hold path w).2

/-- What a pass may have removed after some of its paths: some of them that the ledger knew and
the scan did not find, or nothing if deletions are held. -/
structure Bounded (found : Table Path DiskFile) (ledger : Table Path LocalState) (hold : Bool)
    (w₀ : World K) (done : List Path) (w : World K) : Prop where
  removed : ∃ gone, w.report.removedFromStore = w₀.report.removedFromStore ++ gone ∧
    gone.Sublist done ∧
    (∀ path ∈ gone, hold = false ∧ found[path]? = none ∧ ledger[path]? ≠ none) ∧
    ∀ path, w₀.store.getFile path ≠ none → path ∉ gone → w.store.getFile path ≠ none

theorem Bounded.next {hold : Bool} {w₀ w w' : World K}
    {done : List Path} (h : Bounded found ledger hold w₀ done w) (path : Path)
    (hfiles : ∀ path, w.store.getFile path ≠ none → w'.store.getFile path ≠ none)
    (hremoved : w'.report.removedFromStore = w.report.removedFromStore) :
    Bounded found ledger hold w₀ (done ++ [path]) w' := by
  obtain ⟨gone, hgone, hsub, hcounted, hkept⟩ := h.removed
  exact ⟨gone, hremoved.trans hgone, hsub.trans (List.sublist_append_left _ _), hcounted,
    fun path hp hnot => hfiles path (hkept path hp hnot)⟩

theorem reconcileNext_bounded {deep hold : Bool}
    {w₀ w : World K} {done todo : List Path} (h : Bounded found ledger hold w₀ done w)
    (hsteady : steady m deep hold found ledger (path :: todo) w = true) {E : FolderError → World K → Prop} :
    Holds (reconcileNext m deep hold path) w
      (fun _ w' => Bounded found ledger hold w₀ (done ++ [path]) w' ∧
        steady m deep hold found ledger todo w' = true) E := by
  rw [steady, Bool.and_eq_true] at hsteady
  have hbounded : Holds (reconcileNext m deep hold path) w
      (fun _ w' => Bounded found ledger hold w₀ (done ++ [path]) w') fun _ _ => False := by
    unfold reconcileNext
    rw [holds_tryCatch]
    refine (reconcileOne_removes deep hold path w).mono ?_ fun _ w' hw => h.next path hw.files hw.removed
    rintro - w' (hw | hw)
    · exact h.next path hw.files hw.removed
    · -- the ledger knows the path, and no file is there: so the scan did not find it either
      obtain ⟨gone, hgone, hsub, hcounted, hkept⟩ := h.removed
      have hcount : found[path]? = none ∧ ledger[path]? ≠ none := by
        have hpath := hsteady.1
        rw [hw.missing, Option.isNone_eq_false_iff.mpr (Option.isSome_iff_ne_none.mpr hw.known)] at hpath
        simpa [Option.ne_none_iff_isSome] using hpath
      refine ⟨gone ++ [path], ?_, hsub.append (List.Sublist.refl _), ?_, ?_⟩
      · rw [hw.removed, hgone, List.append_assoc]
      · intro path' hpath'
        rcases List.mem_append.mp hpath' with hpath' | hpath'
        · exact hcounted path' hpath'
        · rw [List.mem_singleton.mp hpath']
          exact ⟨hw.hold, hcount⟩
      · intro path' hp hnot
        rw [List.mem_append, not_or, List.mem_singleton] at hnot
        exact hw.files path' hnot.2 (hkept path' hp hnot.1)
  refine (hbounded.and holds_self).mono ?_ fun _ _ hw => hw.1.elim
  rintro _ w' ⟨hw, hrun⟩
  refine ⟨hw, ?_⟩
  have hnext := hsteady.2
  rwa [hrun] at hnext

/-- Every path of the list, one after the other. -/
theorem forM_bounded {deep hold : Bool}
    {w : World K} {paths : List Path} (hsteady : steady m deep hold found ledger paths w = true)
    {E : FolderError → World K → Prop} :
    Holds (paths.forM (reconcileNext m deep hold)) w
      (fun _ w' => Bounded found ledger hold w paths w') E := by
  refine (holds_forM (fun done w' => Bounded found ledger hold w done w' ∧
    ∀ todo, paths = done ++ todo → steady m deep hold found ledger todo w' = true) ?_ ?_).mono
    (fun _ _ hw => hw.1) fun _ _ hw => hw
  · rintro done path todo w' hpaths ⟨hw', htodo⟩
    refine (reconcileNext_bounded hw' (htodo _ hpaths)).mono ?_ fun _ _ hw => hw
    rintro - w'' ⟨hw'', hsteady'⟩
    refine ⟨hw'', fun todo' htodo' => ?_⟩
    have hcancel : todo = todo' := by
      rw [hpaths, List.append_assoc] at htodo'
      simpa using htodo'
    exact hcancel ▸ hsteady'
  · refine ⟨⟨[], by simp, List.nil_sublist _, by simp, fun path hp _ => hp⟩, ?_⟩
    rintro todo rfl
    exact hsteady

/-- The removed files are some of those counted. -/
theorem length_le_vanished {gone : List Path}
    (hnodup : gone.Nodup) (h : ∀ path ∈ gone, found[path]? = none ∧ ledger[path]? ≠ none) :
    gone.length ≤ vanished ledger found := by
  have hsub : gone ⊆ (ledger.toList.filter fun r => (found[r.1]?).isNone).map Prod.fst := by
    intro path hpath
    obtain ⟨hfound, hledger⟩ := h path hpath
    obtain ⟨state, hstate⟩ := Option.ne_none_iff_exists'.mp hledger
    exact List.mem_map.mpr
      ⟨(path, state), List.mem_filter.mpr ⟨Table.mem_toList.mpr hstate, by simp [hfound]⟩, rfl⟩
  calc gone.length ≤ ((ledger.toList.filter fun r => (found[r.1]?).isNone).map Prod.fst).length :=
        (hnodup.subperm hsub).length_le
    _ = vanished ledger found := by rw [List.length_map, ← List.countP_eq_length_filter, vanished]

/-- How many files a pass may remove that nobody has confirmed. -/
def removalBound (ledger : Table Path LocalState) :
    ℕ := max deletionsAlwaysAllowed (ledger.toList.length / 2)

/-- A pass over what the scan found removes no more than the bound, and nothing it does not
report. -/
structure WithinBound (w w' : World K) : Prop where
  count : w'.report.removedFromStore.length ≤ removalBound w.ledger
  all : ∀ path, w.store.getFile path ≠ none → w'.store.getFile path = none →
    path ∈ w'.report.removedFromStore

theorem noteRenames_keeps : Respects Keeps (noteRenames (K := K)) := by
  refine respects_get.bind fun w => ?_
  split_ifs
  · exact note_keeps fun _ => ⟨rfl, rfl, rfl⟩
  · exact respects_pure _

/-- The world as a pass finds it, with nothing reported. -/
def fresh (w : World K) : World K := { w with report := {}, contents := {} }

/-- The world with the number of deletions held. -/
def holding (hold : Option ℕ) (w : World K) : World K :=
  { w with report := { w.report with heldDeletions := hold.getD 0 } }

theorem reconcileFound_bounded {deep : Bool} {w : World K}
    (hremoved : w.report.removedFromStore = [])
    (hsteady : steady m deep (heldCount .apply w.ledger found).isSome found w.ledger
      (knownPaths found w.store w.ledger) (holding (heldCount .apply w.ledger found) w) = true) :
    Holds (reconcileFound m deep .apply found) w (fun _ w' => WithinBound w w') fun _ w' =>
      WithinBound w w' := by
  have hkeep : ∀ {w' w'' : World K}, Keeps w' w'' → WithinBound w w' → WithinBound w w'' := by
    intro w' w'' hk hb
    refine ⟨by rw [hk.removed]; exact hb.count, fun path hp hnone => ?_⟩
    rw [hk.removed]
    by_contra hnot
    exact hk.files path (fun hgone => hnot (hb.all path hp hgone)) hnone
  unfold reconcileFound
  simp only [holds_bind, holds_get]
  show Holds ((knownPaths found w.store w.ledger).forM _)
    (holding (heldCount .apply w.ledger found) w) _ _
  refine (forM_bounded hsteady).mono ?_ fun _ _ hw => hw
  intro _ w₁ h₁
  have hwithin : WithinBound w w₁ := by
    obtain ⟨gone, hgone, hsub, hcounted, hkept⟩ := h₁.removed
    have hgone' : w₁.report.removedFromStore = gone := by
      rw [hgone]
      show w.report.removedFromStore ++ gone = gone
      rw [hremoved, List.nil_append]
    have hlength := length_le_vanished (hsub.nodup (nodup_knownPaths ..)) fun path hp =>
      (hcounted path hp).2
    refine ⟨?_, fun path hp hnone => ?_⟩
    · rw [hgone']
      cases hhold : heldCount .apply w.ledger found with
      | some count =>
        -- deletions are held, so nothing was removed
        have hnone : gone = [] := by
          refine List.eq_nil_iff_forall_not_mem.mpr fun path hp => ?_
          have hfalse := (hcounted path hp).1
          rw [hhold] at hfalse
          cases hfalse
        rw [hnone]
        exact Nat.zero_le _
      | none =>
        unfold heldCount deletionsAreTooMany at hhold
        dsimp only at hhold
        split_ifs at hhold with hmany
        unfold removalBound
        omega
    · rw [hgone']
      by_contra hnot
      exact hkept path hp hnot hnone
  refine (noteRenames_keeps w₁).mono (fun _ w₂ h₂ => ?_) fun _ w₂ h₂ => hkeep h₂ hwithin
  refine (flushSegment_keeps m.segmentId w₂).mono (fun _ w₃ h₃ => ?_) fun _ w₃ h₃ =>
    hkeep h₃ (hkeep h₂ hwithin)
  exact hkeep h₃ (hkeep h₂ hwithin)

/-- Whether a pass meets a steady disk: one that, whenever the pass comes to a path that the scan
found or that the pass has put into the ledger, has a file there. -/
def steadyPass (m : Machine) (deep : Bool) (w : World K) : Bool :=
  match scan m (fresh w) with
  | (.error _, _) => true
  | (.ok found, w₁) =>
    match checkStorage m found w₁ with
    | (.error _, _) => true
    | (.ok _, w₂) =>
      let hold := heldCount .apply w₂.ledger found
      steady m deep hold.isSome found w₂.ledger (knownPaths found w₂.store w₂.ledger) (holding hold w₂)

/-- **A pass that nobody confirmed, on a steady disk, cannot empty the account**: whatever else
happens on the disk, it removes at most five files, or half of those the ledger knew, from the
store. -/
theorem reconcile_bounded (m : Machine) (deep : Bool) (w : World K)
    (hsteady : steadyPass m deep w = true) :
    WithinBound w (reconcile m deep w).2 := by
  have hstart : ∀ {w' : World K}, DiskOnly (fresh w) w' → WithinBound w w' := by
    intro w' hw
    refine ⟨?_, fun path hp hnone => ?_⟩
    · rw [hw.report]
      exact Nat.zero_le _
    · rw [hw.store] at hnone
      exact absurd hnone hp
  have hholds : Holds (reconcile m deep) w (fun _ w' => WithinBound w w') fun _ w' =>
      WithinBound w w' := by
    unfold reconcile reconcileWith
    rw [holds_bind, holds_modify, holds_bind]
    show Holds (scan m) (fresh w) _ _
    refine ((scan_diskOnly (fresh w)).and holds_self).mono ?_ fun _ _ hw => hstart hw.1
    rintro found w₁ ⟨h₁, hscan⟩
    rw [holds_bind]
    refine ((checkStorage_diskOnly found w₁).and holds_self).mono ?_
      fun _ _ hw => hstart (IsTrans.trans _ _ _ h₁ hw.1)
    rintro _ w₂ ⟨h₂, hcheck⟩
    have h := (IsTrans.trans _ _ _ h₁ h₂ : DiskOnly (fresh w) w₂)
    unfold steadyPass at hsteady
    rw [hscan] at hsteady
    dsimp only at hsteady
    rw [hcheck] at hsteady
    have hbounded := reconcileFound_bounded (by rw [h.report]; rfl) hsteady
    refine hbounded.mono ?_ ?_
    all_goals
      intro _ w₃ hw₃
      refine ⟨?_, fun path hp => hw₃.all path ?_⟩
      · have hcount := hw₃.count
        rwa [h.ledger] at hcount
      · rw [h.store]
        exact hp
  unfold Holds at hholds
  rcases hrun : reconcile m deep w with ⟨_ | report, w'⟩ <;> rw [hrun] at hholds <;> exact hholds

/-! ### Folders one can run -/

/-- A tree from its rows. -/
def treeOf (rows : List (List String × Node Str Bytes)) : Tree Str Bytes :=
  rows.foldl (fun t r => t.insert (r.1.map String.toList) r.2) ∅

/-- A machine with the folder `f`, whose disk `meanwhile` changes. -/
def machineWith (meanwhile : ℕ → Tree Str Bytes → Tree Str Bytes) : Machine :=
  { root := ["f".toList]
    pid := 1
    deepest := 3
    clock := fun _ => 9
    meanwhile := meanwhile
    segmentId := 77 }

/-- A machine with the folder `f` on a quiet disk. -/
def quietMachine : Machine := machineWith fun _ t => t

/-- The marker that device 1 writes. -/
def ownMarker : Node Str Bytes := .file (asciiBytes (toHex 1)) 0

/-- A store of device 1 with these files. -/
def storeOf (files : List (String × Bytes)) : Store symbolic :=
  files.foldl (fun st r => (st.writeStream r.1.toList [.data r.2] 0).1) (Store.new 1 2 fourBytes)

theorem logOk_storeOf (files : List (String × Bytes)) :
    LogOk (storeOf files).owner (storeOf files).device (storeOf files).index.log := by
  have hfold : ∀ (files : List (String × Bytes)) (st : Store symbolic),
      LogOk st.owner st.device st.index.log → Onward st
        (files.foldl (fun st r => (st.writeStream r.1.toList [.data r.2] 0).1) st) := by
    intro files
    induction files with
    | nil => exact fun st _ => .refl st
    | cons r files ih =>
      intro st hst
      have hwrite := (writeStream_onward st r.1.toList [.data r.2] 0).2
      exact hwrite.trans (ih _ (hwrite.log hst))
  exact (hfold files _ LogOk.new).log LogOk.new

/-- A ledger of these files. -/
def ledgerOf (files : List (String × Bytes)) : Table Path LocalState :=
  files.foldl (fun t r => t.insert r.1.toList ⟨r.2.length, 0, symbolic.contentHash r.2⟩) ∅

/-- A world at the start of a pass. -/
def worldOf (rows : List (List String × Node Str Bytes))
    (stored recorded : List (String × Bytes)) : World symbolic :=
  { tree := treeOf ((["f"], .dir) :: rows)
    reached := []
    tick := 0
    store := storeOf stored
    ledger := ledgerOf recorded
    counter := 0
    report := {}
    contents := {} }

def sixFiles : List (String × Bytes) :=
  [("a", [1]), ("b", [2]), ("c", [3]), ("d", [4]), ("e", [5]), ("g", [6])]

/-- A folder with six files, in step with its store. -/
def sixSynced : World symbolic :=
  worldOf ((["f", ".itsanas-folder"], ownMarker) :: sixFiles.map fun r => (["f", r.1], .file r.2 0))
    sixFiles sixFiles

/-- One of six files has been deleted, another is edited while the pass runs, and a third
comes: one file is removed. -/
theorem reconcile_bounded_one_gone :
    let m := machineWith fun tick t =>
      let t := t.erase ["f".toList, "a".toList]
      if tick < 12 then t else (t.insert ["f".toList, "g".toList] (.file [6, 6] 5)).insert
        ["f".toList, "h".toList] (.file [8] 5)
    (reconcile m true sixSynced).2.report.removedFromStore = ["a".toList] ∧
      WithinBound sixSynced (reconcile m true sixSynced).2 := by
  intro m
  exact ⟨by decide +kernel, reconcile_bounded m true sixSynced (by decide +kernel)⟩

/-- **A disk unmounted after the scan takes every file with it.** The scan finds all six files, and
the marker is read; when the pass comes to the files, an empty mount point is left. -/
theorem unmounted_after_scan :
    let m := machineWith fun tick t => if tick < 10 then t else treeOf [(["f"], .dir)]
    let after := (reconcile m true sixSynced).2
    removalBound sixSynced.ledger = 5 ∧
      (sixFiles.all fun r =>
        (sixSynced.store.getFile r.1.toList).isSome && (after.store.getFile r.1.toList).isNone) =
        true := by
  decide +kernel

end Folder
end Itsanas
