/-
# What a pass does about one path

Seen from outside, reconciling a path is a `Step` of the view: nothing, a correction of the
ledger, a file into the store, out of it, onto the disk or off it, or both versions kept; and
where it fails, a step may have got as far as the conflict copy. Each step is one the decision
asked for, from what the path showed when it was looked at (`Folder.Look`). The program of the
source takes exactly such steps (`Folder.reconcileOne_step`). A step changes its own path and, if
both versions are kept, the path of the conflict copy, and no other (`Folder.Step.only`).
-/
import Itsanas.Naming
import Itsanas.Quiet

namespace Itsanas
namespace Folder

open Files Effects

variable {K : Crypto} {r : Rules} {m : Machine} {D : Loc Str → Prop} {v v' : View} {w : World K}

/-! ### Paths and places -/

/-- Where a path is. -/
def Machine.place (m : Machine) (path : Path) : Loc Str := m.root ++ components path

variable {path : Path}

theorem components_eq (h : validate path = .ok ()) : components path = path.splitOn '/' := by
  obtain ⟨-, -, -, -, -, -, -, hcomponents⟩ := validate_iff.mp h
  refine List.filter_eq_self.mpr fun name hname => ?_
  obtain ⟨hempty, -, ⟨hdot, -⟩, -⟩ := rejectComponent_eq_none.mp (hcomponents name hname)
  simp [hempty, hdot]

theorem components_ne_nil (h : validate path = .ok ()) : components path ≠ [] := by
  rw [components_eq h, (splitOn_eq path).1]
  simp

/-- Different paths are in different places. -/
theorem place_inj {p q : Path} (hp : validate p = .ok ()) (hq : validate q = .ok ())
    (h : m.place p = m.place q) :
    p = q := by
  have hsplit : p.splitOn '/' = q.splitOn '/' := by
    rw [← components_eq hp, ← components_eq hq]
    exact List.append_cancel_left h
  have hjoin := congrArg (List.intercalate ['/']) hsplit
  rwa [List.intercalate_splitOn, List.intercalate_splitOn] at hjoin

theorem toFilesystem_cases (path : Path) :
    (∃ error, toFilesystem path = .error error) ∨
      validate path = .ok () ∧ toFilesystem path = .ok (components path) := by
  unfold toFilesystem
  cases validate path with
  | error error => exact .inl ⟨_, rfl⟩
  | ok _ =>
    dsimp only
    split_ifs
    · exact .inl ⟨_, rfl⟩
    · exact .inr ⟨rfl, rfl⟩

/-- A valid path escapes nothing. -/
theorem toFilesystem_of_valid (h : validate path = .ok ()) :
    toFilesystem path = .ok (components path) := by
  obtain ⟨-, -, -, habsolute, -, -, -, hcomponents⟩ := validate_iff.mp h
  unfold toFilesystem
  rw [h]
  dsimp only
  rw [if_neg]
  rintro (hup | hslash)
  · rw [List.contains_iff_mem, components_eq h] at hup
    exact (rejectComponent_eq_none.mp (hcomponents _ hup)).2.2.1.2 rfl
  · exact habsolute hslash

/-- The marker of a local version. -/
def localMarker (hash : Id) : Str := "local-".toList ++ short hash

variable {hash : Id}

theorem plain_localMarker {c : Char} (h : c ∈ localMarker hash) : plainChar c = true := by
  rcases List.mem_append.mp h with h | h
  · have hall : "local-".toList.all plainChar = true := by decide +kernel
    exact List.all_eq_true.mp hall c h
  · obtain ⟨k, rfl⟩ := mem_short h
    exact plainChar_digitChar k

theorem slash_not_mem_localMarker (hash : Id) : '/' ∉ localMarker hash := fun h => by
  cases plain_localMarker h

theorem dot_not_mem_localMarker (hash : Id) : '.' ∉ localMarker hash := fun h => by
  cases plain_localMarker h

/-- A conflict copy's name says of what it is a copy. -/
theorem sibling_inj {p q : Path} {hash hash' : Id} (h : sibling p hash = sibling q hash') : p = q :=
  (withMarker_inj (dot_not_mem_localMarker hash) (dot_not_mem_localMarker hash')
    (slash_not_mem_localMarker hash) (slash_not_mem_localMarker hash') h).1

theorem sibling_ne (path : Path) (hash : Id) : sibling path hash ≠ path := withMarker_ne path _

/-- A conflict copy is in the directory of its original. -/
theorem components_sibling (hp : validate path = .ok ())
    (hs : validate (sibling path hash) = .ok ()) :
    components (sibling path hash) = (components path).dropLast ++ [nameOf (sibling path hash)] := by
  rw [components_eq hs, components_eq hp]
  exact splitOn_withMarker path (slash_not_mem_localMarker hash)

theorem letter_not_mem_toDigits (n : ℕ) : 'c' ∉ Nat.toDigits 10 n := fun h => by
  have hdigit := Nat.isDigit_of_mem_toDigits (by decide) (by decide) h
  revert hdigit
  decide

/-- A conflict copy has none of the names that the folder keeps for itself. -/
theorem place_sibling (hp : validate path = .ok ()) (hs : validate (sibling path hash) = .ok ()) :
    m.place (sibling path hash) ≠ m.root ++ [marker] ∧ ¬m.Stages r (m.place (sibling path hash)) := by
  have hletter : 'c' ∈ nameOf (sibling path hash) := by
    show 'c' ∈ nameOf (withMarker path (localMarker hash))
    rw [(nameOf_withMarker path (slash_not_mem_localMarker hash)).2]
    simp [localMarker]
  have hname : ∀ names name, m.place (sibling path hash) = m.root ++ (names ++ [name]) →
      nameOf (sibling path hash) = name := by
    intro names name h
    have hcomponents := List.append_cancel_left h
    rw [components_sibling hp hs] at hcomponents
    exact List.cons.inj (List.append_inj' hcomponents rfl).2 |>.1
  refine ⟨fun h => ?_, ?_⟩
  · rw [hname [] marker h] at hletter
    revert hletter
    decide
  · rintro ⟨-, n, h⟩
    rw [hname [stagingDir] (partName m.pid n) (by rw [h, Machine.part, Machine.staging]; simp)] at hletter
    rw [partName, List.mem_append, List.mem_append, List.mem_cons] at hletter
    rcases hletter with (h | h | h) | h
    · exact letter_not_mem_toDigits _ h
    · revert h
      decide
    · exact letter_not_mem_toDigits _ h
    · revert h
      decide

theorem Straight.sibling (h : Straight m D (components path))
    (hp : validate path = .ok ()) (hs : validate (sibling path hash) = .ok ()) :
    Straight m D (components (sibling path hash)) := by
  refine ⟨components_ne_nil hs, fun front back hnames hne hback => ?_⟩
  rw [components_sibling hp hs] at hnames
  obtain ⟨last, back', rfl⟩ : ∃ last back', back = back' ++ [last] :=
    ⟨back.getLast hback, back.dropLast, (List.dropLast_append_getLast hback).symm⟩
  rw [← List.append_assoc] at hnames
  refine h.2 front (back' ++ [(components path).getLast h.1]) ?_ hne (by simp)
  rw [← List.append_assoc, ← (List.append_inj' hnames rfl).1, List.dropLast_append_getLast]

/-! ### Steps of a view -/

/-- There is that content at a place, as far as it can be seen. -/
def Has (r : Rules) (m : Machine) (v : View) (loc : Loc Str) (c : Bytes) :
    Prop := m.Stages r loc ∨ v.disk loc = some c

/-- What a look at a path comes to: the hash of the file there, or without a closer look the
ledger's; at the place of a staging file it may be anything. -/
def Look (K : Crypto) (r : Rules) (m : Machine) (deep : Bool) (path : Path) (v : View)
    (found : Option Id) : Prop :=
  m.Stages r (m.place path) ∨ (found = none ∧ v.disk (m.place path) = none) ∨
    ∃ c hash, v.disk (m.place path) = some c ∧ found = some hash ∧
      (hash = K.contentHash c ∨ deep = false ∧ v.ledger path = some hash)

namespace View

/-- A content has come to a path in the store and the ledger. -/
def takeIn (K : Crypto) (path : Path) (c : Bytes) (v : View) : View :=
  (v.setStore path (some (K.contentHash c))).setLedger path (some (K.contentHash c))

/-- A content has come to the place of a path. -/
noncomputable def putAt (r : Rules) (m : Machine) (path : Path) (c : Bytes) (v : View) : View :=
  v.setDisk r m (m.place path) (some c)

/-- The store's content has come to a path on disk, and the ledger says so. -/
noncomputable def writeOut (r : Rules) (m : Machine) (path : Path) (bytes : Bytes) (hash : Id)
    (v : View) : View :=
  (v.putAt r m path bytes).setLedger path (some hash)

end View

/-- The rules allow a copy of that content to go to a path. -/
def Room (r : Rules) (m : Machine) (v : View) (path : Path) (c : Bytes) : Prop :=
  ∃ t source, r.aside t source (m.place path) = true ∧ Files.content t source = some c ∧
    Files.content t (m.place path) = v.disk (m.place path)

/-- Both versions are to be kept at a path, and the local one, `c`, can be copied aside. -/
structure Conflict (K : Crypto) (r : Rules) (m : Machine) (path : Path) (found : Option Id)
    (v : View) (hash : Id) (c : Bytes) : Prop where
  decided : decide found (v.store path) (v.ledger path) = .keepBoth
  found : found = some hash
  valid : validate (sibling path hash) = .ok ()
  has : Has r m v (m.place path) c
  room : Room r m v (sibling path hash) c
  replace : r.replace (m.place path) = true

/-- What may become of a view when a path is reconciled, and whether that is a success. -/
inductive Step (K : Crypto) (r : Rules) (m : Machine) (hold : Bool) (path : Path)
    (found : Option Id) (v : View) :
    Bool → View → Prop
  | failed : Step K r m hold path found v false v
  | nothing : decide found (v.store path) (v.ledger path) = .nothing →
      Step K r m hold path found v true v
  | held : decide found (v.store path) (v.ledger path) = .removeFromStore → hold = true →
      Step K r m hold path found v true v
  | recorded : decide found (v.store path) (v.ledger path) = .recordOnly →
      Step K r m hold path found v true (v.setLedger path found)
  | imported (c : Bytes) : decide found (v.store path) (v.ledger path) = .importFile →
      Has r m v (m.place path) c → Step K r m hold path found v true (v.takeIn K path c)
  | removed : decide found (v.store path) (v.ledger path) = .removeFromStore → hold = false →
      Step K r m hold path found v true ((v.setStore path none).setLedger path none)
  | exported (bytes : Bytes) : decide found (v.store path) (v.ledger path) = .exportFile →
      r.replace (m.place path) = true → v.store path = some (K.contentHash bytes) →
      Step K r m hold path found v true (v.writeOut r m path bytes (K.contentHash bytes))
  | deleted : decide found (v.store path) (v.ledger path) = .deleteFromDisk →
      r.replace (m.place path) = true →
      Step K r m hold path found v true ((v.setDisk r m (m.place path) none).setLedger path none)
  | copied (hash : Id) (c : Bytes) : Conflict K r m path found v hash c →
      Step K r m hold path found v false (v.putAt r m (sibling path hash) c)
  | copiedIn (hash : Id) (c : Bytes) : Conflict K r m path found v hash c →
      Step K r m hold path found v false
        ((v.putAt r m (sibling path hash) c).takeIn K (sibling path hash) c)
  | keptBoth (hash : Id) (c bytes : Bytes) : Conflict K r m path found v hash c →
      v.store path = some (K.contentHash bytes) →
      Step K r m hold path found v true
        (((v.putAt r m (sibling path hash) c).takeIn K (sibling path hash) c).writeOut r m path bytes
          (K.contentHash bytes))

/-- Where a view can go when a path is reconciled. -/
def Steps (K : Crypto) (r : Rules) (m : Machine) (deep hold : Bool) (path : Path) (v : View)
    (ok : Bool) (v' : View) : Prop :=
  ok = false ∧ v' = v ∨
    validate path = .ok () ∧ ∃ found, Look K r m deep path v found ∧ Step K r m hold path found v ok v'

/-- **What each decision means.** -/
theorem decide_spec (found inStore ledger : Option Id) :
    match decide found inStore ledger with
    | .nothing => found = ledger ∧ inStore = ledger
    | .recordOnly => found = inStore ∧ found ≠ ledger
    | .importFile => (∃ hash, found = some hash) ∧ found ≠ ledger ∧ (inStore = ledger ∨ inStore = none)
    | .removeFromStore => found = none ∧ inStore = ledger ∧ ledger ≠ none
    | .exportFile => (∃ hash, inStore = some hash) ∧ inStore ≠ ledger ∧ (found = ledger ∨ found = none)
    | .deleteFromDisk => inStore = none ∧ found = ledger ∧ ledger ≠ none
    | .keepBoth => (∃ hash, found = some hash) ∧ (∃ hash, inStore = some hash) ∧ found ≠ inStore ∧
        found ≠ ledger ∧ inStore ≠ ledger := by
  by_cases hf : found = ledger
  · have hlocal : (found != ledger) = false := by simpa using hf
    by_cases hs : inStore = ledger
    · have hremote : (inStore != ledger) = false := by simpa using hs
      simp only [decide, hlocal, hremote]
      exact ⟨hf, hs⟩
    · have hremote : (inStore != ledger) = true := by simpa using hs
      simp only [decide, hlocal, hremote]
      cases inStore with
      | none => exact ⟨rfl, hf, Ne.symm hs⟩
      | some hash => exact ⟨⟨hash, rfl⟩, hs, .inl hf⟩
  · have hlocal : (found != ledger) = true := by simpa using hf
    by_cases hs : inStore = ledger
    · have hremote : (inStore != ledger) = false := by simpa using hs
      simp only [decide, hlocal, hremote]
      cases found with
      | none => exact ⟨rfl, hs, Ne.symm hf⟩
      | some hash => exact ⟨⟨hash, rfl⟩, hf, .inl hs⟩
    · have hremote : (inStore != ledger) = true := by simpa using hs
      simp only [decide, hlocal, hremote]
      by_cases hfs : found = inStore
      · rw [if_pos hfs]
        exact ⟨hfs, hf⟩
      · rw [if_neg hfs]
        cases found with
        | none =>
          cases inStore with
          | none => exact absurd rfl hfs
          | some hash => exact ⟨⟨hash, rfl⟩, hs, .inr rfl⟩
        | some hash =>
          cases inStore with
          | none => exact ⟨⟨hash, rfl⟩, hf, .inr rfl⟩
          | some hash' => exact ⟨⟨hash, rfl⟩, ⟨hash', rfl⟩, hfs, hf, hs⟩

/-! ### What a step leaves alone -/

variable {loc : Loc Str}

namespace View

theorem disk_setDisk_self (hloc : ¬m.Stages r loc) (c : Option Bytes) (v : View) :
    (v.setDisk r m loc c).disk loc = c := by
  show hide r m _ loc = c
  rw [hide, if_neg hloc, put_self]

theorem disk_setDisk_of_ne {loc loc' : Loc Str} (hloc : ¬m.Stages r loc') (hne : loc' ≠ loc)
    (c : Option Bytes) (v : View) : (v.setDisk r m loc c).disk loc' = v.disk loc' := by
  show hide r m _ loc' = _
  rw [hide, if_neg hloc, put_of_ne hne]

end View

/-- Nothing has changed but at one path. -/
structure Only (r : Rules) (m : Machine) (path : Path) (v v' : View) : Prop where
  disk : ∀ loc, ¬m.Stages r loc → loc ≠ m.place path → v'.disk loc = v.disk loc
  store : ∀ path', path' ≠ path → v'.store path' = v.store path'
  ledger : ∀ path', path' ≠ path → v'.ledger path' = v.ledger path'

namespace Only

variable {path : Path} {v v' v'' : View}

theorem refl (r : Rules) (m : Machine) (path : Path) (v : View) : Only r m path v v :=
  ⟨fun _ _ _ => rfl, fun _ _ => rfl, fun _ _ => rfl⟩

theorem trans (h : Only r m path v v') (h' : Only r m path v' v'') : Only r m path v v'' :=
  ⟨fun loc hloc hne => (h'.disk loc hloc hne).trans (h.disk loc hloc hne),
    fun q hne => (h'.store q hne).trans (h.store q hne), fun q hne =>
      (h'.ledger q hne).trans (h.ledger q hne)⟩

theorem setDisk (c : Option Bytes) : Only r m path v (v.setDisk r m (m.place path) c) :=
  ⟨fun _ hloc hne => View.disk_setDisk_of_ne hloc hne c v, fun _ _ => rfl, fun _ _ => rfl⟩

theorem setStore (hash : Option Id) : Only r m path v (v.setStore path hash) :=
  ⟨fun _ _ _ => rfl, fun _ hne => Function.update_of_ne hne .., fun _ _ => rfl⟩

theorem setLedger (hash : Option Id) : Only r m path v (v.setLedger path hash) :=
  ⟨fun _ _ _ => rfl, fun _ _ => rfl, fun _ hne => Function.update_of_ne hne ..⟩

theorem takeIn (c : Bytes) : Only r m path v (v.takeIn K path c) := (setStore _).trans (setLedger _)

theorem writeOut (bytes : Bytes) (hash : Id) : Only r m path v (v.writeOut r m path bytes hash) :=
  (setDisk _).trans (setLedger _)

end Only

/-- The local version has been copied to the conflict copy's path, and perhaps taken in there. -/
structure Aside (K : Crypto) (r : Rules) (m : Machine) (path : Path) (found : Option Id) (v : View)
    (ok : Bool)
    (hash : Id) (c : Bytes) (v₁ : View) : Prop extends Conflict K r m path found v hash c where
  view : v₁ = v.putAt r m (sibling path hash) c ∧ ok = false ∨
    v₁ = (v.putAt r m (sibling path hash) c).takeIn K (sibling path hash) c

variable {found : Option Id}

/-- **A step changes nothing but its path**, once the conflict copy has been made if there is to be
one. -/
theorem Step.only {hold ok : Bool} (h : Step K r m hold path found v ok v') :
    Only r m path v v' ∨ ∃ hash c v₁, Aside K r m path found v ok hash c v₁ ∧ Only r m path v₁ v' := by
  cases h with
  | failed => exact .inl (.refl ..)
  | nothing _ => exact .inl (.refl ..)
  | held _ _ => exact .inl (.refl ..)
  | recorded _ => exact .inl (.setLedger _)
  | imported c _ _ => exact .inl (.takeIn c)
  | removed _ _ => exact .inl ((Only.setStore _).trans (.setLedger _))
  | exported bytes _ _ _ => exact .inl (.writeOut bytes _)
  | deleted _ _ => exact .inl ((Only.setDisk _).trans (.setLedger _))
  | copied hash c hconflict => exact .inr ⟨hash, c, _, ⟨hconflict, .inl ⟨rfl, rfl⟩⟩, .refl ..⟩
  | copiedIn hash c hconflict => exact .inr ⟨hash, c, _, ⟨hconflict, .inr rfl⟩, .refl ..⟩
  | keptBoth hash c bytes hconflict _ =>
    exact .inr ⟨hash, c, _, ⟨hconflict, .inr rfl⟩, .writeOut bytes _⟩

/-- A step leaves the disk alone where the rules forbid to write. -/
theorem Step.disk_eq {hold ok : Bool} (h : Step K r m hold path found v ok v')
    (hlocked : r.replace (m.place path) = false) (hok : ok = true) : v'.disk = v.disk := by
  cases h with
  | exported _ _ hreplace _ => rw [hlocked] at hreplace; cases hreplace
  | deleted _ hreplace => rw [hlocked] at hreplace; cases hreplace
  | keptBoth _ _ _ hconflict _ => exact absurd hconflict.replace (by rw [hlocked]; nofun)
  | failed => rfl
  | copied _ _ _ => cases hok
  | copiedIn _ _ _ => cases hok
  | nothing _ => rfl
  | held _ _ => rfl
  | recorded _ => rfl
  | imported _ _ _ => rfl
  | removed _ _ => rfl

/-- Making the copy changes nothing but the copy's path. -/
theorem Aside.only {ok : Bool} {c : Bytes} {v₁ : View}
    (h : Aside K r m path found v ok hash c v₁) : Only r m (sibling path hash) v v₁ := by
  rcases h.view with ⟨rfl, -⟩ | rfl
  · exact .setDisk _
  · exact (Only.setDisk _).trans (.takeIn c)

/-! ### The program takes such steps -/

theorem Sees.withReport (h : Sees r m D v w) {report : Report} {contents : Contents} :
    Sees r m D v { w with report := report, contents := contents } :=
  ⟨h.tame, h.inside, h.view⟩

/-- A look sees what the view has, unless it is at a staging file. -/
theorem Sees.content_eq (h : Sees r m D v w) (hloc : ¬m.Stages r loc) :
    Files.content w.tree loc = v.disk loc := by
  rw [← h.disk, hide, if_neg hloc]

theorem removeFile_holds (h : Sees r m D v w) (hvalid : validate path = .ok ())
    (hstore : v.store path ≠ none) {E : FolderError → World K → Prop} :
    Holds (onStore m fun now st => st.removeFile path now) w
      (fun _ w' => Sees r m D (v.setStore path none) w') E := by
  have hrow : rowHash (w.store.row path) ≠ none := by
    rw [← storeHash_eq hvalid]
    rwa [← h.view] at hstore
  rw [holds_onStore]
  rcases w.store.removeFile_cases path (m.clock w.tick) with
    ⟨r, hremove, hnot⟩ | ⟨st, t, f, hremove, -, -, hlogged, -⟩
  · -- there is a file, so it is removed
    exfalso
    unfold Store.removeFile Store.removeIndex at hremove
    rw [hvalid] at hremove
    cases hfile : w.store.getFile path with
    | none =>
      cases hr : w.store.row path with
      | file entry =>
        rw [Store.getFile_eq_some.mpr hr] at hfile
        cases hfile
      | absent => rw [hr] at hrow; exact hrow rfl
      | gone tombstone => rw [hr] at hrow; exact hrow rfl
    | some entry =>
      rw [hfile] at hremove
      exact hnot (congrArg Prod.snd hremove).symm
  · rw [hremove]
    exact ⟨fun _ _ => h.withStore_update hvalid hlogged.row, (by simp)⟩

/-- What is at a place is what the view has there. -/
theorem Sees.has (h : Sees r m D v w) {c : Bytes} (hc : Files.content w.tree loc = some c) :
    Has r m v loc c := by
  by_cases hloc : m.Stages r loc
  · exact .inl hloc
  · exact .inr (by rw [← h.content_eq hloc, hc])

theorem Sees.look (h : Sees r m D v w) {deep : Bool}
    (hfound : (found = none ∧ Files.content w.tree (m.place path) = none) ∨
      ∃ c hash, Files.content w.tree (m.place path) = some c ∧ found = some hash ∧
        Shows K deep w.ledger[path]? c hash) : Look K r m deep path v found := by
  by_cases hloc : m.Stages r (m.place path)
  · exact .inl hloc
  · right
    rw [h.content_eq hloc] at hfound
    rcases hfound with hnone | ⟨c, hash, hc, hsome, hshows⟩
    · exact .inl hnone
    · refine .inr ⟨c, hash, hc, hsome, hshows.imp_right fun ⟨hdeep, hledger⟩ => ⟨hdeep, ?_⟩⟩
      rw [← h.view]
      exact hledger

/-! ### What a pass is held to -/

/-- No link is on the way to a place. -/
def plainWay (m : Machine) (t : Tree Str Bytes) (names : List Str) : Bool :=
  names.dropLast.inits.all fun front => front = [] || plainAt t (m.root ++ front)

/-- If it comes to staging a file for that place, no link is at the staging directory or at the
staging file, and the rules allow it. -/
def stageable (r : Rules) (m : Machine) (names : List Str) (w : World K) : Bool :=
  match (createDirAll m.root names.dropLast w.tree).value with
  | .error _ => true
  | .ok () =>
      plainAt w.tree m.staging && plainAt w.tree (m.part w.counter) && r.stage (m.part w.counter)

/-- Copying a file aside, and then exporting to its place, keeps to the rules as far as it gets. -/
def clearAside (r : Rules) (m : Machine) (path : Path) (real target : List Str) (w : World K) : Bool :=
  stageable r m target w &&
    match copyAside m real target w with
    | (.error _, _) => true
    | (.ok _, w₁) =>
      r.aside w.tree (m.root ++ real) (m.root ++ target) &&
        match importFile m path target w₁ with
        | (.error _, _) => true
        | (.ok _, w₂) => stageable r m real w₂

/-- What is done about a path keeps to the rules. -/
def clearAct (r : Rules) (m : Machine) (path : Path) (real : List Str)
    (diskHash storeHash ledgerHash : Option Id) (w : World K) : Bool :=
  match decide diskHash storeHash ledgerHash with
  | .exportFile => r.replace (m.root ++ real) && stageable r m real w
  | .deleteFromDisk => r.replace (m.root ++ real)
  | .keepBoth =>
    match diskHash with
    | none => true
    | some hash =>
      match toFilesystem (sibling path hash) with
      | .error _ => true
      | .ok target => r.replace (m.root ++ real) && clearAside r m (sibling path hash) real target w
  | _ => true

/-- The pass comes to a path by no link, and keeps to the rules there. -/
def clearStep (r : Rules) (m : Machine) (deep : Bool) (path : Path) (w : World K) : Bool :=
  match toFilesystem path with
  | .error _ => true
  | .ok real =>
    plainWay m w.tree real &&
      match hashOnDisk m real w.ledger[path]? deep w with
      | (.error _, _) => true
      | (.ok found, w₁) =>
        clearAct r m path real found (storeHash w.store path)
          (w.ledger[path]?.map LocalState.contentHash) w₁

variable {names : List Str}

theorem straight_of_plainWay (hne : names ≠ []) (h : plainWay m w.tree names = true) :
    Straight m (Plain w) names := by
  refine ⟨hne, fun front back hnames hfront hback => ?_⟩
  have hmem : front ∈ names.dropLast.inits := by
    rw [List.mem_inits, hnames, List.dropLast_append_of_ne_nil hback]
    exact List.prefix_append _ _
  have hplain := List.all_eq_true.mp h front hmem
  rwa [decide_eq_false hfront, Bool.false_or] at hplain

theorem cleared_of_stageable (h : stageable r m names w = true)
    (hmade : (createDirAll m.root names.dropLast w.tree).value = .ok ()) :
    Cleared r m (Plain w) w.counter := by
  unfold stageable at h
  rw [hmade] at h
  simp only [Bool.and_eq_true] at h
  exact ⟨h.1.1, h.1.2, h.2⟩

theorem Straight.mono {D' : Loc Str → Prop} (h : Straight m D names) (hD : ∀ loc, D loc → D' loc) :
    Straight m D' names :=
  ⟨h.1, fun front back hnames hfront hback => hD _ (h.2 front back hnames hfront hback)⟩

section
variable (hq : m.Quiet)
include hq

/-- Both versions are kept, or the copy has got as far as it has. -/
theorem keepBoth_holds (h : Sees r m (Plain w) v w) (hvalid : validate path = .ok ())
    (hpath : Straight m (Plain w) (components path)) {hold : Bool}
    (hfile : ∀ hash, found = some hash → ∃ c, Files.content w.tree (m.place path) = some c)
    (hdecide : decide found (v.store path) (v.ledger path) = .keepBoth)
    (hclear : clearAct r m path (components path) found (v.store path) (v.ledger path) w = true) :
    Holds (keepBoth m path (components path) found) w
      (fun _ w' => ∃ v', Sees r m (Plain w) v' w' ∧ Step K r m hold path found v true v')
      fun _ w' => ∃ v', Sees r m (Plain w) v' w' ∧ Step K r m hold path found v false v' := by
  have hspec := decide_spec found (v.store path) (v.ledger path)
  rw [hdecide] at hspec
  obtain ⟨⟨hash, rfl⟩, ⟨hash', hstore⟩, -⟩ := hspec
  obtain ⟨c, hc⟩ := hfile hash rfl
  unfold clearAct at hclear
  rw [hdecide] at hclear
  unfold keepBoth
  dsimp only at hclear ⊢
  rcases toFilesystem_cases (sibling path hash) with ⟨error, hsib⟩ | ⟨hsvalid, hsib⟩
  · rw [hsib]
    exact ⟨v, h, .failed⟩
  rw [hsib] at hclear ⊢
  simp only [clearAside, Bool.and_eq_true] at hclear
  obtain ⟨hreplace, hstage, hcopy⟩ := hclear
  have hsstraight := hpath.sibling hvalid hsvalid
  simp only [holds_bind]
  refine ((copyAside_holds hq h hpath hsstraight (cleared_of_stageable hstage) hc).and
    holds_self).mono ?_
    fun _ w' hw => ⟨v, hw.1, .failed⟩
  rintro _ w₁ ⟨⟨hc₁, h₁⟩, hcopied⟩
  rw [hcopied] at hcopy
  simp only [Bool.and_eq_true] at hcopy
  obtain ⟨hroom, himport⟩ := hcopy
  have hconflict : Conflict K r m path (some hash) v hash c :=
    ⟨hdecide, rfl, hsvalid, h.has hc,
      ⟨w.tree, _, hroom, hc, h.content_eq (place_sibling hvalid hsvalid).2⟩, hreplace⟩
  refine ((importFile_holds hq h₁ (sibling path hash) hsstraight (.of_content hc₁)).and
    holds_self).mono ?_
    fun _ w' hw => ⟨_, hw.1, .copied hash c hconflict⟩
  rintro _ w₂ ⟨⟨c', hc', h₂⟩, himported⟩
  rw [himported] at himport
  obtain rfl : c = c' := Option.some.inj (hc₁.symm.trans hc')
  -- the copy is beside the path, so the store still has what it had there
  have hstore₂ : ((v.putAt r m (sibling path hash) c).takeIn K (sibling path hash) c).store path =
      some hash' := by
    show Function.update v.store (sibling path hash) _ path = _
    rw [Function.update_of_ne (Ne.symm (sibling_ne path hash)), hstore]
  have hplain : ∀ loc, Plain w loc → Plain w₂ loc := fun _ => h₂.plain
  refine (exportFile_holds hq h₂.now (hpath.mono hplain) (cleared_of_stageable himport)
    hstore₂).mono ?_
    fun _ w' hw => ⟨_, hw.weaken hplain, .copiedIn hash c hconflict⟩
  rintro - w₃ ⟨bytes, rfl, h₃⟩
  exact ⟨_, h₃.weaken hplain, .keptBoth hash c bytes hconflict hstore⟩

/-- **What is decided is done**, or nothing of it, or as much of it as a step says. -/
theorem act_step (h : Sees r m (Plain w) v w) (hvalid : validate path = .ok ())
    (hpath : Straight m (Plain w) (components path)) {hold : Bool}
    (hfile : ∀ hash, found = some hash → ∃ c, Files.content w.tree (m.place path) = some c)
    (hclear : clearAct r m path (components path) found (v.store path) (v.ledger path) w = true) :
    Holds (act m hold path (components path) found (v.store path) (v.ledger path)) w
      (fun _ w' => ∃ v', Sees r m (Plain w) v' w' ∧ Step K r m hold path found v true v')
      fun _ w' => ∃ v', Sees r m (Plain w) v' w' ∧ Step K r m hold path found v false v' := by
  have hspec := decide_spec found (v.store path) (v.ledger path)
  have hfailed : ∀ (e : FolderError) (w' : World K), Sees r m (Plain w) v w' →
      ∃ v', Sees r m (Plain w) v' w' ∧ Step K r m hold path found v false v' :=
        fun _ _ hw => ⟨v, hw, .failed⟩
  unfold act
  dsimp only
  cases hdecide : decide found (v.store path) (v.ledger path) with
  | nothing => exact ⟨v, h, .nothing hdecide⟩
  | recordOnly =>
    cases found with
    | some hash =>
      obtain ⟨c, hc⟩ := hfile hash rfl
      simp only [holds_bind]
      exact (record_holds hq h path hc hash).mono
        (fun _ w' hw => ⟨_, hw.withReport, .recorded hdecide⟩) hfailed
    | none =>
      simp only [holds_bind]
      exact (clearLocalState_holds h path).mono
        (fun _ w' hw => ⟨_, hw.withReport, .recorded hdecide⟩) hfailed
  | importFile =>
    rw [hdecide] at hspec
    obtain ⟨⟨hash, hhash⟩, -⟩ := hspec
    obtain ⟨c, hc⟩ := hfile hash hhash
    simp only [holds_bind]
    refine (importFile_holds hq h path hpath (.of_content hc)).mono ?_ hfailed
    rintro - w' ⟨c', hc', hw⟩
    exact ⟨_, hw.withReport, .imported c' hdecide (h.has hc')⟩
  | removeFromStore =>
    rw [hdecide] at hspec
    cases hold with
    | true => exact ⟨v, h, .held hdecide rfl⟩
    | false =>
      simp only [Bool.false_eq_true, if_false, holds_bind]
      refine (removeFile_holds h hvalid ?_).mono ?_ hfailed
      · rw [hspec.2.1]
        exact hspec.2.2
      · intro _ w' hw
        exact (clearLocalState_holds hw path).mono
          (fun _ w' hw => ⟨_, hw.withReport, .removed hdecide rfl⟩) hfailed
  | exportFile =>
    rw [hdecide] at hspec
    obtain ⟨⟨hash, hhash⟩, -⟩ := hspec
    unfold clearAct at hclear
    rw [hdecide] at hclear
    obtain ⟨hreplace, hstage⟩ := Bool.and_eq_true_iff.mp hclear
    simp only [holds_bind]
    refine (exportFile_holds hq h hpath (cleared_of_stageable hstage) hhash).mono ?_ hfailed
    rintro - w' ⟨bytes, rfl, hw⟩
    exact ⟨_, hw.withReport, .exported bytes hdecide hreplace hhash⟩
  | deleteFromDisk =>
    unfold clearAct at hclear
    rw [hdecide] at hclear
    simp only [holds_bind]
    refine (deleteFromDisk_holds hq h hpath).mono ?_ hfailed
    intro _ w' hw
    exact (clearLocalState_holds hw path).mono
      (fun _ w' hw => ⟨_, hw.withReport, .deleted hdecide hclear⟩) hfailed
  | keepBoth =>
    simp only [holds_bind]
    refine (keepBoth_holds hq h hvalid hpath hfile hdecide hclear).mono ?_ fun _ _ hw => hw
    rintro sibling w' ⟨v', hw, hstep⟩
    exact ⟨v', hw.withReport, hstep⟩

/-- **One path of a pass is a step of the view.** -/
theorem reconcileOne_step (h : Sees r m D v w) {deep : Bool}
    (hclear : clearStep r m deep path w = true) (hold : Bool) :
    Holds (reconcileOne m deep hold path) w
      (fun _ w' => ∃ v', Sees r m D v' w' ∧ Steps K r m deep hold path v true v')
      fun _ w' => ∃ v', Sees r m D v' w' ∧ Steps K r m deep hold path v false v' := by
  unfold reconcileOne
  rw [holds_bind, holds_get]
  rcases toFilesystem_cases path with ⟨error, herror⟩ | ⟨hvalid, hreal⟩
  · rw [herror]
    exact ⟨v, h, .inl ⟨rfl, rfl⟩⟩
  · unfold clearStep at hclear
    rw [hreal] at hclear ⊢
    obtain ⟨hway, hclear⟩ := Bool.and_eq_true_iff.mp hclear
    have hpath := straight_of_plainWay (components_ne_nil hvalid) hway
    have hD : ∀ loc, D loc → Plain w loc := fun _ => h.plain
    simp only [holds_bind]
    refine ((hashOnDisk_holds hq h.now hpath w.ledger[path]? deep).and holds_self).mono ?_
      fun _ w' hw => ⟨v, hw.1.2.1.weaken hD, .inl ⟨rfl, rfl⟩⟩
    rintro found w' ⟨⟨hlooked, hw, hfound⟩, hhash⟩
    rw [hhash] at hclear
    have hlook : Look K r m deep path v found := h.look hfound
    have hfile : ∀ hash, found = some hash → ∃ c, Files.content w'.tree (m.place path) = some c := by
      rintro hash rfl
      rcases hfound with ⟨hnone, -⟩ | ⟨c, -, hc, -⟩
      · cases hnone
      · rw [hlooked.tree]
        exact ⟨c, hc⟩
    have hstore : storeHash w.store path = v.store path := by rw [← h.view]; rfl
    have hledger : w.ledger[path]?.map LocalState.contentHash = v.ledger path := by rw [← h.view]; rfl
    rw [hstore, hledger] at hclear ⊢
    have hplain : ∀ loc, Plain w loc → Plain w' loc := fun _ => hw.plain
    refine (act_step hq hw.now hvalid (hpath.mono hplain) hfile hclear).mono ?_ ?_
    · rintro - w'' ⟨v', hw'', hstep⟩
      exact ⟨v', hw''.weaken fun loc hloc => hplain loc (hD loc hloc),
        .inr ⟨hvalid, found, hlook, hstep⟩⟩
    · rintro - w'' ⟨v', hw'', hstep⟩
      exact ⟨v', hw''.weaken fun loc hloc => hplain loc (hD loc hloc),
        .inr ⟨hvalid, found, hlook, hstep⟩⟩

end

end Folder
end Itsanas
