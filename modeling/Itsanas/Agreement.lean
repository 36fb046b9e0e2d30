/-
# A pass settles the folder

After a deep pass in which nothing failed and nothing was held back, the disk, the store and the
ledger have the same at every path that any of them knows (`Folder.Run.agree`); and such a folder
is left alone by the next pass (`Folder.second_pass`). One kind of path breaks this: the names the
folder keeps for itself. The scan passes over them, but the store may have them, and then the pass
writes the store's version over its own marker and is refused the next time
(`Folder.marker_overwritten`), or uses the file of a path for staging. So the theorem asks that it
does neither (`Folder.settleRules`).
-/
import Itsanas.Pass

namespace Itsanas
namespace Folder

open Files Effects

variable {K : Crypto} {r : Rules} {m : Machine} {D : Loc Str → Prop} {v v' : View} {w : World K}

/-! ### Agreement at a path -/

/-- The three views have the same at a path. -/
def Agree (K : Crypto) (m : Machine) (v : View) (path : Path) : Prop :=
  (v.disk (m.place path)).map K.contentHash = v.store path ∧ v.store path = v.ledger path

theorem Only.agree {path path' : Path} (h : Only r m path v v') (hp : validate path = .ok ())
    (hp' : validate path' = .ok ()) (hne : path' ≠ path) (hfree : ¬m.Stages r (m.place path')) :
    Agree K m v' path' ↔ Agree K m v path' := by
  unfold Agree
  rw [h.disk _ hfree fun heq => hne (place_inj hp' hp heq), h.store _ hne, h.ledger _ hne]

variable {path : Path} {found : Option Id}

/-- A deep look at a path that is no staging file finds the content there. -/
theorem Look.deep (h : Look K r m true path v found)
    (hfree : ¬m.Stages r (m.place path)) : found = (v.disk (m.place path)).map K.contentHash := by
  rcases h with h | ⟨rfl, hnone⟩ | ⟨c, hash, hc, rfl, hshows⟩
  · exact absurd h hfree
  · rw [hnone]
    rfl
  · rcases hshows with rfl | ⟨hdeep, -⟩
    · rw [hc]
      rfl
    · cases hdeep

theorem Has.disk {loc : Loc Str} {c : Bytes} (h : Has r m v loc c)
    (hfree : ¬m.Stages r loc) : v.disk loc = some c :=
  h.resolve_left hfree

variable {v₁ : View}

theorem Aside.agree {ok : Bool} {hash : Id} {c : Bytes}
    (h : Aside K r m path found v ok hash c v₁) (hok : ok = true)
    (hfree : ¬m.Stages r (m.place (sibling path hash))) : Agree K m v₁ (sibling path hash) := by
  rcases h.view with ⟨-, hfalse⟩ | rfl
  · rw [hok] at hfalse
    cases hfalse
  · refine ⟨?_, ?_⟩
    · show ((v.setDisk r m (m.place (sibling path hash)) (some c)).disk _).map _ =
        Function.update v.store (sibling path hash) _ (sibling path hash)
      rw [View.disk_setDisk_self hfree, Function.update_self]
      rfl
    · show Function.update v.store (sibling path hash) _ (sibling path hash) =
        Function.update v.ledger (sibling path hash) _ (sibling path hash)
      rw [Function.update_self, Function.update_self]

/-- **A step that succeeds, with nothing held, brings the three views together at its path.** -/
theorem Step.agree (h : Step K r m false path found v true v')
    (hlook : Look K r m true path v found)
    (hfree : ¬m.Stages r (m.place path)) : Agree K m v' path := by
  have hfound := hlook.deep hfree
  have hspec := decide_spec found (v.store path) (v.ledger path)
  have hwritten : ∀ (v : View) (bytes : Bytes), v.store path = some (K.contentHash bytes) →
      Agree K m (v.writeOut r m path bytes (K.contentHash bytes)) path := by
    intro v bytes hstore
    refine ⟨?_, ?_⟩
    · show ((v.setDisk r m (m.place path) (some bytes)).disk _).map _ = v.store path
      rw [View.disk_setDisk_self hfree, hstore]
      rfl
    · show v.store path = Function.update v.ledger path _ path
      rw [Function.update_self, hstore]
  cases h with
  | nothing hdecide =>
    rw [hdecide] at hspec
    exact ⟨by rw [← hfound, hspec.1, hspec.2], hspec.2⟩
  | held _ hhold => cases hhold
  | recorded hdecide =>
    rw [hdecide] at hspec
    refine ⟨hfound.symm.trans hspec.1, ?_⟩
    show v.store path = Function.update v.ledger path found path
    rw [Function.update_self, hspec.1]
  | imported c _ hhas =>
    refine ⟨?_, ?_⟩
    · show (v.disk (m.place path)).map _ = Function.update v.store path _ path
      rw [hhas.disk hfree, Function.update_self]
      rfl
    · show Function.update v.store path _ path = Function.update v.ledger path _ path
      rw [Function.update_self, Function.update_self]
  | removed hdecide _ =>
    rw [hdecide] at hspec
    refine ⟨?_, ?_⟩
    · show (v.disk (m.place path)).map _ = Function.update v.store path _ path
      rw [← hfound, hspec.1, Function.update_self]
    · show Function.update v.store path _ path = Function.update v.ledger path _ path
      rw [Function.update_self, Function.update_self]
  | exported bytes _ _ hstore => exact hwritten v bytes hstore
  | deleted hdecide _ =>
    rw [hdecide] at hspec
    refine ⟨?_, ?_⟩
    · show ((v.setDisk r m (m.place path) none).disk _).map _ = v.store path
      rw [View.disk_setDisk_self hfree, hspec.1]
      rfl
    · show v.store path = Function.update v.ledger path _ path
      rw [Function.update_self, hspec.1]
  | keptBoth hash c bytes _ hstore =>
    refine hwritten _ bytes ?_
    show Function.update v.store (sibling path hash) _ path = _
    rw [Function.update_of_ne (Ne.symm (sibling_ne path hash)), hstore]

/-! ### A run settles its paths -/

/-- Where a run may have brought something: at paths that agree and that are no staging file's. -/
structure Fine (K : Crypto) (r : Rules) (m : Machine) (v : View) (path : Path) : Prop where
  valid : validate path = .ok ()
  free : ¬m.Stages r (m.place path)
  agree : Agree K m v path

/-- A path that one of the three views has. -/
def Known (m : Machine) (v : View) (path : Path) : Prop :=
  (∃ names, toLogical names = some path ∧ v.disk (m.root ++ names) ≠ none) ∨ v.store path ≠ none ∨
    v.ledger path ≠ none

/-- Names to sync are no staging file's. -/
theorem not_stages_of_toLogical {names : List Str} (h : toLogical names = some path) :
    ¬m.Stages r (m.root ++ names) := by
  rintro ⟨-, n, heq⟩
  rw [Machine.part, Machine.staging, List.append_assoc] at heq
  rw [toLogical_staging (by rw [List.append_cancel_left heq]; simp)] at h
  cases h

theorem Only.known {path path' : Path} (h : Only r m path v v') (hp : validate path = .ok ())
    (hknown : Known m v' path') (hne : path' ≠ path) : Known m v path' := by
  rcases hknown with ⟨names, hlogical, hdisk⟩ | hstore | hledger
  · refine .inl ⟨names, hlogical, ?_⟩
    rwa [h.disk _ (not_stages_of_toLogical hlogical) fun heq => ?_] at hdisk
    -- the names of a path give back that path
    have hnames : names = components path := List.append_cancel_left heq
    refine hne ?_
    unfold toLogical at hlogical
    split_ifs at hlogical
    split at hlogical
    · cases hlogical
    · rw [← Option.some.inj hlogical, hnames, components_eq hp, List.intercalate_splitOn]
  · rw [h.store _ hne] at hstore
    exact .inr (.inl hstore)
  · rw [h.ledger _ hne] at hledger
    exact .inr (.inr hledger)

/-- No file is under a name with a slash. -/
def Placed (r : Rules) (m : Machine) (v : View) : Prop :=
  ∀ names, ¬m.Stages r (m.root ++ names) → v.disk (m.root ++ names) ≠ none → ∀ name ∈ names, '/' ∉ name

theorem Only.placed (h : Only r m path v v') (hp : validate path = .ok ()) (hplaced : Placed r m v) :
    Placed r m v' := by
  intro names hfree hdisk name hname
  by_cases heq : m.root ++ names = m.place path
  · rw [List.append_cancel_left heq, components_eq hp] at hname
    exact slash_not_mem_of_splitOn hname
  · rw [h.disk _ hfree heq] at hdisk
    exact hplaced names hfree hdisk name hname

/-- What one step leaves: paths that agreed still do, its own path agrees, and whatever is known
that was not known agrees too. -/
structure Settling (K : Crypto) (r : Rules) (m : Machine) (v : View) (paths : List Path)
    (v' : View) : Prop where
  kept : ∀ path, Fine K r m v path → Fine K r m v' path
  done : ∀ path ∈ paths, Fine K r m v' path
  known : ∀ path, Known m v' path → Known m v path ∨ Fine K r m v' path
  placed : Placed r m v → Placed r m v'
  marker : v'.disk m.markerAt = v.disk m.markerAt

theorem Steps.settling (h : Steps K r m true false path v true v')
    (hfree : ¬m.Stages r (m.place path)) (hlocked : r.replace m.markerAt = false) :
    Settling K r m v [path] v' := by
  rcases h with ⟨hfalse, -⟩ | ⟨hvalid, found, hlook, hstep⟩
  · cases hfalse
  have hself : Fine K r m v' path := ⟨hvalid, hfree, hstep.agree hlook hfree⟩
  have hmarker : v'.disk m.markerAt = v.disk m.markerAt := by
    by_cases hplace : m.place path = m.markerAt
    · rw [hstep.disk_eq (hplace ▸ hlocked) rfl]
    · rcases hstep.only with honly | ⟨hash, c, v₁, haside, honly⟩
      · exact honly.disk _ markerAt_not_staged (Ne.symm hplace)
      · rw [honly.disk _ markerAt_not_staged (Ne.symm hplace),
          haside.only.disk _ markerAt_not_staged
            (Ne.symm (place_sibling (r := r) hvalid haside.valid).1)]
  rcases hstep.only with honly | ⟨hash, c, v₁, haside, honly⟩
  · refine ⟨fun path' hpath' =>
      ?_, by simpa using hself, fun path' hknown => ?_, honly.placed hvalid, hmarker⟩
    · by_cases hne : path' = path
      · rw [hne]
        exact hself
      · refine ⟨hpath'.valid, hpath'.free, ?_⟩
        rw [honly.agree hvalid hpath'.valid hne hpath'.free]
        exact hpath'.agree
    · by_cases hne : path' = path
      · exact .inr (hne ▸ hself)
      · exact .inl (honly.known hvalid hknown hne)
  · -- the copy's path agrees once the copy is made, and the rest of the step leaves it alone
    have hpart := (place_sibling (r := r) (m := m) hvalid haside.valid).2
    have hsibling : Fine K r m v' (sibling path hash) := by
      refine ⟨haside.valid, hpart, ?_⟩
      rw [honly.agree hvalid haside.valid (sibling_ne path hash) hpart]
      exact haside.agree rfl hpart
    refine ⟨fun path' hpath' => ?_, by simpa using hself, fun path' hknown => ?_,
      fun hplaced => honly.placed hvalid (haside.only.placed haside.valid hplaced), hmarker⟩
    · by_cases hne : path' = path
      · rw [hne]
        exact hself
      by_cases hne' : path' = sibling path hash
      · rw [hne']
        exact hsibling
      · refine ⟨hpath'.valid, hpath'.free, ?_⟩
        rw [honly.agree hvalid hpath'.valid hne hpath'.free,
          haside.only.agree haside.valid hpath'.valid hne' hpath'.free]
        exact hpath'.agree
    · by_cases hne : path' = path
      · exact .inr (hne ▸ hself)
      by_cases hne' : path' = sibling path hash
      · exact .inr (hne' ▸ hsibling)
      · exact .inl (haside.only.known haside.valid (honly.known hvalid hknown hne) hne')

/-- **A run in which nothing failed and nothing was held settles every path it took, and brings
nothing else that is not settled.** -/
theorem Run.settling {paths : List Path} {ok : Bool} (h : Run K r m true false paths v ok v')
    (hok : ok = true)
    (hfree : ∀ path ∈ paths, ¬m.Stages r (m.place path)) (hlocked : r.replace m.markerAt = false) :
    Settling K r m v paths v' := by
  induction h with
  | nil => exact ⟨fun _ h => h, by simp, fun _ => .inl, id, rfl⟩
  | @cons path paths v v₁ v₂ ok ok' hsteps hrun ih =>
    obtain ⟨rfl, rfl⟩ := Bool.and_eq_true_iff.mp hok
    have hfirst := hsteps.settling (hfree path (by simp)) hlocked
    have hrest := ih rfl fun path' hp => hfree path' (List.mem_cons_of_mem _ hp)
    refine ⟨fun path' hp => hrest.kept path' (hfirst.kept path' hp), fun path' hp =>
      ?_, fun path' hknown => ?_,
      fun hplaced => hrest.placed (hfirst.placed hplaced), hrest.marker.trans hfirst.marker⟩
    · rcases List.mem_cons.mp hp with rfl | hp
      · exact hrest.kept _ (hfirst.done _ (by simp))
      · exact hrest.done path' hp
    · rcases hrest.known path' hknown with hknown | hfine
      · exact (hfirst.known path' hknown).imp_right (hrest.kept path')
      · exact .inr hfine

/-! ### The next pass -/

/-- The disk, the store and the ledger have the same at a path, or all have nothing there. -/
def Same (root : Loc Str) (w : World K) (path : Path) : Prop :=
  (Files.content w.tree (root ++ components path)).map K.contentHash = storeHash w.store path ∧
    storeHash w.store path = ledgerHash w.ledger path

/-- A folder in which there is nothing to do. -/
structure Settled (root : Loc Str) (w : World K) : Prop where
  tame : Tame (fun _ => False) root w.tree
  inside : ∀ loc ∈ w.reached, root <+: loc
  marked : ∃ c, Files.content w.tree (root ++ [marker]) = some c ∧ markerOf w.store.device c = .ours
  same : ∀ path, Knows root w path → validate path = .ok () ∧ Same root w path ∧
    Files.content w.tree (root ++ components path) ≠ none
  flushed : w.store.index.log.pendingEntries = []

/-- The world but for what has been reached and reported. -/
structure Still (w w' : World K) : Prop where
  tree : w'.tree = w.tree
  store : w'.store = w.store
  ledger : w'.ledger = w.ledger

/-- Where a pass over a settled folder looks. -/
def Looks (root : Loc Str) (w : World K) (loc : Loc Str) : Prop :=
  loc = root ++ [marker] ∨ ∃ names, Files.content w.tree (root ++ names) ≠ none ∧
    ∃ front back, names = front ++ back ∧ front ≠ [] ∧ back ≠ [] ∧ loc = root ++ front

theorem Settled.tame_looks {root : Loc Str} (h : Settled root w) :
    Tame (Looks root w) root w.tree := by
  refine ⟨h.tame.rooted, ?_⟩
  rintro loc node (rfl | ⟨names, hcontent, front, back, rfl, -, hback, rfl⟩) hnode
  · obtain ⟨c, hc, -⟩ := h.marked
    obtain ⟨modified, hfile⟩ := content_eq_some.mp hc
    rw [hnode] at hfile
    cases hfile
    rfl
  · obtain ⟨c, hc⟩ := Option.ne_none_iff_exists'.mp hcontent
    obtain ⟨modified, hfile⟩ := content_eq_some.mp hc
    rw [← List.append_assoc] at hfile
    have hdir := isDir_iff.mp (h.tame.isDir_above (List.prefix_append _ _) hback hfile)
    rw [hnode] at hdir
    cases hdir
    rfl

/-- A path at which all agree is left alone. -/
theorem reconcileNext_settled (hq : m.Quiet) {w₁ : World K} (hs : Settled m.root w)
    (hstill : Still w w₁)
    (h : Sees r m (Looks m.root w) v w₁) (hknows : Knows m.root w path) (deep hold : Bool)
    {E : FolderError → World K → Prop} :
    Holds (reconcileNext m deep hold path) w₁
      (fun _ w' => Still w w' ∧ Sees r m (Looks m.root w) v w') E := by
  obtain ⟨hvalid, ⟨hdisk, hledger⟩, hcontent⟩ := hs.same path hknows
  obtain ⟨c, hc⟩ := Option.ne_none_iff_exists'.mp hcontent
  have hstore : storeHash w.store path = some (K.contentHash c) := by rw [← hdisk, hc]; rfl
  have hstraight : Straight m (Looks m.root w) (components path) :=
    ⟨components_ne_nil hvalid, fun front back hnames hfront hback =>
      .inr ⟨_, hcontent, front, back, hnames, hfront, hback, rfl⟩⟩
  unfold reconcileNext
  rw [holds_tryCatch]
  unfold reconcileOne
  rw [holds_bind, holds_get, toFilesystem_of_valid hvalid, hstill.store, hstill.ledger]
  dsimp only
  rw [holds_bind]
  refine (hashOnDisk_holds hq h hstraight w.ledger[path]? deep).mono ?_ ?_
  · rintro found w' ⟨hlooked, hsees, hfound⟩
    rw [hstill.tree] at hfound
    have hsome : found = some (K.contentHash c) := by
      rcases hfound with ⟨-, hnone⟩ | ⟨c', hash, hc', rfl, hshows⟩
      · exact absurd hnone hcontent
      · obtain rfl : c' = c := Option.some.inj (hc'.symm.trans hc)
        rcases hshows with rfl | ⟨-, hhash⟩
        · rfl
        · rw [← hhash, ← hstore, hledger]
          rfl
    have hledger' : w.ledger[path]?.map LocalState.contentHash = some (K.contentHash c) :=
      hledger.symm.trans hstore
    rw [hsome, hstore, hledger']
    unfold act
    have hnothing : decide (some (K.contentHash c)) (some (K.contentHash c))
        (some (K.contentHash c)) = .nothing := by
      simp [decide]
    rw [hnothing]
    exact ⟨⟨hlooked.tree.trans hstill.tree, hlooked.store.trans hstill.store,
      hlooked.ledger.trans hstill.ledger⟩, hsees⟩
  · rintro error w' ⟨-, -, hnone⟩
    rw [hstill.tree] at hnone
    exact absurd hnone hcontent

/-- **A settled folder is left alone**: the next pass, deep or not, is accepted and changes
nothing, and there is nothing to flush. -/
theorem second_pass (hq : m.Quiet) (hs : Settled m.root w) (hreaches : Reaches m w.tree)
    (deep : Bool) (deletions : Deletions) :
    Holds (reconcileWith m deep deletions) w (fun _ w' => Still w w') fun _ _ => False := by
  obtain ⟨c, hc, hours⟩ := hs.marked
  have h : Sees .none m (Looks m.root w) (view .none m w) (fresh w) := ⟨hs.tame_looks, hs.inside, rfl⟩
  have hroot : isDir w.tree m.root = true := by
    obtain ⟨modified, hnode⟩ := content_eq_some.mp hc
    exact hs.tame.rooted _ _ _ hnode (List.prefix_refl _)
  have hmarked : Marked m w.store.device (view .none m w) :=
    ⟨c, by rw [← h.content_eq markerAt_not_staged]; exact hc, hours⟩
  unfold reconcileWith
  rw [holds_bind, holds_modify, holds_bind]
  show Holds (scan m) (fresh w) _ _
  refine (scan_holds hq h).mono ?_ fun _ _ hw => hw.2.2 hroot hreaches
  rintro found w₁ ⟨hlooked, h₁, -, hfound⟩
  have hdevice : w₁.store.device = w.store.device := by rw [hlooked.store]; rfl
  rw [holds_bind]
  refine (checkStorage_marked hq (.inl rfl) h₁ found (hdevice ▸ hmarked)).mono ?_ fun _ _ hw => hw
  rintro - w₂ ⟨hlooked', h₂⟩
  have hstill : Still w w₂ := ⟨hlooked'.tree.trans hlooked.tree, hlooked'.store.trans hlooked.store,
    hlooked'.ledger.trans hlooked.ledger⟩
  unfold reconcileFound
  simp only [holds_bind, holds_get, hstill.store, hstill.ledger]
  show Holds ((knownPaths found w.store w.ledger).forM _)
    (holding (heldCount deletions w.ledger found) w₂) _ _
  refine (holds_forM (fun _ w' => Still w w' ∧ Sees .none m (Looks m.root w) (view .none m w) w') ?_
    ?_).mono ?_ fun _ _ hw => hw
  · rintro done path todo w' hpaths ⟨hstill', hw'⟩
    refine reconcileNext_settled hq hs hstill' hw' ?_ deep _
    have hmem : path ∈ knownPaths found w.store w.ledger := by
      rw [hpaths]
      simp
    rwa [mem_knownPaths, hfound] at hmem
  · exact ⟨⟨hstill.tree, hstill.store, hstill.ledger⟩, h₂.tame, h₂.inside, h₂.view⟩
  · rintro - w₃ ⟨hstill₃, h₃⟩
    have hrenames : Holds (noteRenames (K := K)) w₃ (fun _ w' => Still w w') fun _ _ => False := by
      unfold noteRenames
      rw [holds_bind, holds_get]
      split_ifs
      · exact ⟨hstill₃.tree, hstill₃.store, hstill₃.ledger⟩
      · exact hstill₃
    refine hrenames.mono ?_ fun _ _ hw => hw
    intro _ w₄ hstill₄
    have hflush : w₄.store.flushSegment m.segmentId = (w₄.store, .ok none) := by
      unfold Store.flushSegment
      rw [hstill₄.store, hs.flushed]
    rw [holds_onStore, hflush]
    exact ⟨fun _ _ => hstill₄, (by simp)⟩

/-! ### The first pass -/

theorem toLogical_marker : toLogical [marker] = none := by
  unfold toLogical
  rw [if_pos]
  simp [isIgnored]

/-- What the pass starts from knows nothing that the world does not. -/
theorem Passed.known {deep hold ok : Bool} (h : Passed r m deep hold w v₁ ok v')
    (hknown : Known m v₁ path) : Knows m.root w path := by
  have hview : ∀ path, Known m (view r m w) path → Knows m.root w path := by
    rintro path (⟨names, hlogical, hdisk⟩ | hstore | hledger)
    · refine .inl ⟨names, hlogical, fun hnone => hdisk ?_⟩
      show hide r m (Files.content w.tree) _ = none
      rw [hide, if_neg (not_stages_of_toLogical hlogical), hnone]
    · refine .inr (.inl fun hnone => hstore ?_)
      show storeHash w.store path = none
      unfold storeHash Store.stat
      rw [hnone]
      cases validate path <;> rfl
    · refine .inr (.inr fun hnone => hledger ?_)
      show ledgerHash w.ledger path = none
      rw [ledgerHash, hnone]
      rfl
  rcases h.start with rfl | rfl
  · exact hview path hknown
  · refine hview path (hknown.imp_left ?_)
    rintro ⟨names, hlogical, hdisk⟩
    refine ⟨names, hlogical, ?_⟩
    rwa [View.disk_setDisk_of_ne (not_stages_of_toLogical hlogical) fun heq => ?_] at hdisk
    -- the marker is no name to sync
    rw [List.append_cancel_left heq, toLogical_marker] at hlogical
    cases hlogical

theorem Passed.placed {deep hold ok : Bool} (h : Passed r m deep hold w v₁ ok v')
    (hs : Sound m.root w.tree) : Placed r m v₁ := by
  have hview : Placed r m (view r m w) := by
    intro names hfree hdisk
    have hcontent : Files.content w.tree (m.root ++ names) ≠ none := by
      change hide r m (Files.content w.tree) _ ≠ none at hdisk
      rwa [hide, if_neg hfree] at hdisk
    obtain ⟨c, hc⟩ := Option.ne_none_iff_exists'.mp hcontent
    obtain ⟨modified, hnode⟩ := content_eq_some.mp hc
    exact hs.names hnode
  rcases h.start with rfl | rfl
  · exact hview
  · intro names hfree hdisk
    by_cases heq : m.root ++ names = m.markerAt
    · rw [List.append_cancel_left heq]
      decide
    · rw [View.disk_setDisk_of_ne hfree heq] at hdisk
      exact hview names hfree hdisk

/-- The paths that the store or the ledger knows. -/
def onRecord (w : World K) : List Path :=
  w.store.tree.files.toList.map Prod.fst ++ w.ledger.toList.map Prod.fst

/-- What a pass that is to settle the folder is held to: no staging file is the file of a path that
the store or the ledger has, and the marker is not written or removed as a path's file. -/
def settleRules (m : Machine) (w : World K) : Rules where
  stage loc := (onRecord w).all fun path => m.place path ≠ loc
  aside _ _ _ := true
  replace loc := loc ≠ m.markerAt

/-- A path that is known is no staging file's. -/
theorem Knows.free (hs : Sound m.root w.tree) (h : Knows m.root w path) :
    ¬m.Stages (settleRules m w) (m.place path) := by
  rcases h with ⟨names, hlogical, hcontent⟩ | h
  · obtain ⟨c, hc⟩ := Option.ne_none_iff_exists'.mp hcontent
    obtain ⟨modified, hnode⟩ := content_eq_some.mp hc
    obtain ⟨-, rfl⟩ := components_of_toLogical hlogical (hs.names hnode)
    exact not_stages_of_toLogical hlogical
  · rintro ⟨hstage, -⟩
    have hrecord : path ∈ onRecord w := by
      unfold onRecord
      rw [List.mem_append, mem_keys, mem_keys]
      exact h
    exact of_decide_eq_true (List.all_eq_true.mp hstage path hrecord) rfl

/-- A settled path of the view is the same in the world. -/
theorem Fine.same (h : Sees r m D v w) (hfine : Fine K r m v path) : Same m.root w path := by
  obtain ⟨hdisk, hledger⟩ := hfine.agree
  have hcontent : Files.content w.tree (m.root ++ components path) = v.disk (m.place path) :=
    h.content_eq hfine.free
  refine ⟨?_, ?_⟩
  · rw [hcontent, hdisk, ← h.view]
    rfl
  · rw [← h.view] at hledger
    exact hledger

/-- What the world knows after the pass, the view does, unless it was known before. -/
theorem knows_after {w' : World K} (h : Sees r m D v' w') (honward : Onward w.store w'.store)
    (hknows : Knows m.root w' path) : Known m v' path ∨ Knows m.root w path := by
  rcases hknows with ⟨names, hlogical, hcontent⟩ | hstore | hledger
  · refine .inl (.inl ⟨names, hlogical, ?_⟩)
    rwa [← h.content_eq (not_stages_of_toLogical hlogical)]
  · rcases honward.valid path hstore with hbefore | hvalid
    · exact .inr (.inr (.inl hbefore))
    · refine .inl (.inr (.inl ?_))
      obtain ⟨entry, hrow⟩ := getFile_ne_none.mp hstore
      rw [← h.view]
      show storeHash w'.store path ≠ none
      rw [storeHash_eq hvalid, hrow]
      nofun
  · refine .inl (.inr (.inr ?_))
    obtain ⟨state, hstate⟩ := Option.ne_none_iff_exists'.mp hledger
    rw [← h.view]
    show ledgerHash w'.ledger path ≠ none
    rw [ledgerHash, hstate]
    simp

/-- Where all agree on a path that one of them has, there is a file. -/
theorem Fine.content {w' : World K} (h : Sees r m D v' w') (hplaced : Placed r m v')
    (hfine : Fine K r m v' path) (hknows : Knows m.root w' path) :
    Files.content w'.tree (m.root ++ components path) ≠ none := by
  obtain ⟨hdisk, hledger⟩ := hfine.same h
  rcases hknows with ⟨names, hlogical, hcontent⟩ | hstore | hstate
  · have hfree := not_stages_of_toLogical (r := r) (m := m) hlogical
    have hslash := hplaced names hfree (by rwa [← h.content_eq hfree])
    rwa [(components_of_toLogical hlogical hslash).2]
  · obtain ⟨entry, hrow⟩ := getFile_ne_none.mp hstore
    intro hnone
    rw [hnone, storeHash_eq hfine.valid, hrow] at hdisk
    cases hdisk
  · obtain ⟨state, hstate⟩ := Option.ne_none_iff_exists'.mp hstate
    intro hnone
    rw [← hdisk, hnone, ledgerHash, hstate] at hledger
    cases hledger

/-- **A deep pass settles the folder.** On a quiet disk, a deep pass that meets no link, stages no
file at the place of a path on record and does not take its marker for a path's file, and in which
nothing failed and nothing was held, leaves disk, store and ledger with the same at every path that
any of them knows or knew; and the next pass, whatever its kind, is accepted, changes nothing and
flushes nothing. -/
theorem reconcile_settles (m : Machine) (deletions : Deletions) (w : World K) (hq : m.Quiet)
    (hs : Sound m.root w.tree) (hstart : w.reached = [])
    (hlog : LogOk w.store.owner w.store.device w.store.index.log)
    (hmarker : w.tree[m.markerAt]? ≠ some .dir)
    (hclear : clearPass (settleRules m w) m true deletions w = true) {report : Report} {w' : World K}
    (hrun : reconcileWith m true deletions w = (.ok report, w')) (hfailed : report.failed = [])
    (hheld : report.heldDeletions = 0) :
    (∀ path, Knows m.root w path ∨ Knows m.root w' path → Same m.root w' path) ∧
      ∀ (m' : Machine) (deep : Bool) (deletions' : Deletions), m'.root = m.root → m'.Quiet →
        Reaches m' w'.tree →
        ∃ report' w'', reconcileWith m' deep deletions' w' = (.ok report', w'') ∧ Still w' w'' := by
  have hholds := reconcileWith_passed hq hs (by simp [hstart]) hclear
  obtain ⟨hold, v₁, ok, v', hsees, hpassed, hended, hmarked⟩ := hholds.returned hrun
  obtain rfl := hended.failed hfailed
  obtain rfl := hended.held hheld
  obtain ⟨paths, -, hpaths, hruns⟩ := hpassed.run
  have hsettling : Settling K (settleRules m w) m v₁ paths v' :=
    hruns.settling rfl (fun path hp => ((hpaths path).mp hp).free hs) (by simp [settleRules])
  have hbefore : ∀ path, Knows m.root w path → Fine K (settleRules m w) m v' path := fun path hknows =>
    hsettling.done path ((hpaths path).mpr hknows)
  have hafter : ∀ path, Knows m.root w' path → Fine K (settleRules m w) m v' path := by
    intro path hknows
    rcases knows_after hsees hended.onward hknows with hknown | hknows
    · exact (hsettling.known path hknown).elim (fun h => hbefore path (hpassed.known h)) id
    · exact hbefore path hknows
  refine ⟨fun path hknows => (hknows.elim (hbefore path) (hafter path)).same hsees, ?_⟩
  intro m' deep deletions' hroot hq' hreaches
  have hsettled : Settled m'.root w' := by
    rw [hroot]
    refine ⟨hsees.tame, hsees.inside, ?_, fun path hknows => ?_, hended.flushed hlog⟩
    · obtain ⟨c, hc, hours⟩ := hmarked hmarker
      refine ⟨c, ?_, hended.onward.device ▸ hours⟩
      exact (hsees.content_eq markerAt_not_staged).trans (hsettling.marker.trans hc)
    · have hfine := hafter path hknows
      exact ⟨hfine.valid, hfine.same hsees,
        hfine.content hsees (hsettling.placed (hpassed.placed hs)) hknows⟩
  have hsecond := second_pass hq' hsettled hreaches deep deletions'
  unfold Holds at hsecond
  rcases hrun' : reconcileWith m' deep deletions' w' with ⟨_ | report', w''⟩
  · rw [hrun'] at hsecond
    exact hsecond.elim
  · rw [hrun'] at hsecond
    exact ⟨report', w'', rfl, hsecond⟩

/-- A folder with a conflict, an edit, a deletion and a file to come. -/
def busyWorld : World symbolic :=
  worldOf [(["f", "a"], .file [1] 0), (["f", "b"], .file [2, 2] 0), (["f", "n"], .file [8] 0)]
    [("a", [3]), ("b", [2]), ("d/x", [7]), ("e", [5])] [("a", [0]), ("b", [2]), ("e", [5])]

theorem reaches_of_rows {t : Tree Str Bytes}
    (h : ∀ r ∈ t.toList, r.1.length < m.root.length + m.deepest) :
    Reaches m t := by
  intro names node hnode
  have hlength := h _ (mem_rows.mpr hnode)
  rw [List.length_append] at hlength
  omega

/-- A pass that reports something has not been refused. -/
theorem returned_of_report {α : Type} {f : Report → α} {a : α}
    {run : Except FolderError Report × World K}
    (h : run.1.toOption.map f = some a) : ∃ report, run = (.ok report, run.2) ∧ f report = a := by
  rcases run with ⟨_ | report, w'⟩
  · cases h
  · exact ⟨report, rfl, Option.some.inj h⟩

/-- The pass keeps both versions of one file and brings another, and then all is settled. -/
theorem reconcile_settles_busy :
    let first := reconcileWith quietMachine true .apply busyWorld
    first.2.report.keptBoth.length = 1 ∧ first.2.report.exported = ["d/x".toList] ∧
      (∀ path, Knows quietMachine.root busyWorld path ∨ Knows quietMachine.root first.2 path →
        Same quietMachine.root first.2 path) ∧
      ∃ report' w'', reconcileWith quietMachine false .apply first.2 = (.ok report', w'') ∧
          Still first.2 w'' := by
  have hfirst : ((reconcileWith quietMachine true .apply busyWorld).1.toOption.map
      fun report => (report.failed, report.heldDeletions)) = some ([], 0) := by decide +kernel
  obtain ⟨report, hrun, hfacts⟩ := returned_of_report hfirst
  have hlog : LogOk busyWorld.store.owner busyWorld.store.device busyWorld.store.index.log :=
    logOk_storeOf [("a", [3]), ("b", [2]), ("d/x", [7]), ("e", [5])]
  have hsettles :=
    reconcile_settles quietMachine .apply busyWorld (fun _ _ => rfl) (by decide +kernel) rfl
    hlog (by decide +kernel) (by decide +kernel) hrun (congrArg Prod.fst hfacts)
      (congrArg Prod.snd hfacts)
  exact ⟨by decide +kernel, by decide +kernel, hsettles.1,
    hsettles.2 quietMachine false .apply rfl (fun _ _ => rfl) (reaches_of_rows (by decide +kernel))⟩

/-- **The store's version of the marker goes over the marker**, and the next pass takes the folder
for another device's. -/
theorem marker_overwritten :
    let w := worldOf [(["f", "a"], .file [1] 0)] [(".itsanas-folder", [7])] []
    let first := reconcileWith quietMachine true .apply w
    (first.1.toOption.map fun report => (report.failed, report.heldDeletions)) = some ([], 0) ∧
      (reconcileWith quietMachine true .apply first.2).1 = .error (.foreign [Char.ofNat 7]) := by
  decide +kernel

end Folder
end Itsanas
