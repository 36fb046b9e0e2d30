/-
# What the scan finds, and what the marker says

On a quiet disk the scan finds exactly the files that are there under names to sync, whatever
links and directories lie beside them (`Folder.scan_holds`). It changes nothing. The check of the
marker after it changes nothing either, or writes this device's marker
(`Folder.checkStorage_holds`); a folder that has the marker passes it again
(`Folder.checkStorage_marked`).
-/
import Itsanas.Guard

namespace Itsanas
namespace Folder

open Files Effects

variable {K : Crypto} {r : Rules} {m : Machine} {D : Loc Str → Prop} {v : View} {w : World K}

/-! ### The scan -/

/-- A file to sync as `path` is in a directory or below it. -/
def Below (m : Machine) (t : Tree Str Bytes) (directory : List Str) (path : Path) : Prop :=
  ∃ names, directory <+: names ∧ toLogical names = some path ∧ Files.content t (m.root ++ names) ≠ none

/-- What is no directory has nothing below it. -/
theorem below_iff_of_not_dir {t : Tree Str Bytes} (h : Tame D m.root t) {names : List Str}
    {path : Path} (hnot : t[m.root ++ names]? ≠ some .dir) :
    Below m t names path ↔ toLogical names = some path ∧ Files.content t (m.root ++ names) ≠ none := by
  constructor
  · rintro ⟨_, ⟨rest, rfl⟩, hlogical, hcontent⟩
    rcases eq_or_ne rest [] with rfl | hne
    · rw [List.append_nil] at hlogical hcontent
      exact ⟨hlogical, hcontent⟩
    · obtain ⟨c, hc⟩ := Option.ne_none_iff_exists'.mp hcontent
      obtain ⟨modified, hnode⟩ := content_eq_some.mp hc
      rw [← List.append_assoc] at hnode
      exact absurd (isDir_iff.mp (h.isDir_above (List.prefix_append _ _) hne hnode)) hnot
  · rintro ⟨hlogical, hcontent⟩
    exact ⟨names, List.prefix_refl _, hlogical, hcontent⟩

/-- What is in a directory or below it is one of its entries or below one. -/
theorem below_iff_of_dir {t : Tree Str Bytes} (h : Tame D m.root t) {directory : List Str}
    {path : Path} (hdir : isDir t (m.root ++ directory) = true) :
    Below m t directory path ↔ ∃ name ∈ children t (m.root ++ directory),
      Below m t (directory ++ [name]) path := by
  constructor
  · rintro ⟨_, ⟨rest, rfl⟩, hlogical, hcontent⟩
    cases rest with
    | nil =>
      rw [List.append_nil, content_of_isDir hdir] at hcontent
      exact absurd rfl hcontent
    | cons name rest =>
      refine ⟨name, mem_children.mpr ?_, directory ++ name :: rest, ⟨rest, by simp⟩, hlogical,
        hcontent⟩
      obtain ⟨c, hc⟩ := Option.ne_none_iff_exists'.mp hcontent
      obtain ⟨modified, hnode⟩ := content_eq_some.mp hc
      rcases eq_or_ne rest [] with rfl | hne
      · exact ⟨_, by rw [List.append_assoc]; exact hnode⟩
      · refine ⟨.dir, isDir_iff.mp (h.isDir_above ?_ hne (?_ : _ = some (.file c modified)))⟩
        · rw [List.append_assoc]
          exact List.prefix_append _ _
        · simpa using hnode
  · rintro ⟨name, -, names, hnames, hlogical, hcontent⟩
    exact ⟨names, (List.prefix_append _ _).trans hnames, hlogical, hcontent⟩

theorem toLogical_staging {names : List Str} (h : stagingDir ∈ names) : toLogical names = none := by
  unfold toLogical
  rw [if_pos]
  exact List.any_eq_true.mpr ⟨stagingDir, h, by simp⟩

/-- Every path there is below the root can be opened. -/
def Reaches (m : Machine) (t : Tree Str Bytes) : Prop :=
  ∀ names node, t[m.root ++ names]? = some node → names.length < m.deepest

/-- The state of a scan after some entries: nothing has changed, and the files found so far are
those it had and those of `Q`. -/
structure Scanned (r : Rules) (m : Machine) (D : Loc Str → Prop) (v : View) (w : World K)
    (out : Table Path DiskFile)
    (Q : Path → Prop) (out' : Table Path DiskFile) (w' : World K) : Prop where
  looked : Looked w w'
  sees : Sees r m D v w'
  found : ∀ path, out'[path]? ≠ none ↔ out[path]? ≠ none ∨ Q path

theorem walkEntry_holds (hq : m.Quiet) (h : Sees r m D v w) {directory : List Str} {name : Str}
    {out : Table Path DiskFile}
    {walk : List Str → Table Path DiskFile → Act K (Table Path DiskFile)} {node : Node Str Bytes}
    (hnode : w.tree[m.root ++ (directory ++ [name])]? = some node)
    (hwalk : node = .dir → ∀ {w' : World K}, w'.tree = w.tree → Sees r m D v w' →
      Holds (walk (directory ++ [name]) out) w'
        (Scanned r m D v w' out (Below m w.tree (directory ++ [name])))
        fun _ w'' => Looked w' w'' ∧ Sees r m D v w'' ∧ ¬Reaches m w.tree) :
    Holds (walkEntry m walk directory out name) w
      (Scanned r m D v w out (Below m w.tree (directory ++ [name])))
      fun _ w' => Looked w w' ∧ Sees r m D v w' ∧ ¬Reaches m w.tree := by
  have hlook := symlinkMetadata_found h.tame hnode
  have hlooked :=
    looked_of_tree (w := w) hq (symlinkMetadata m.root (directory ++ [name])) (by rw [hlook])
  have hsees := h.call_look hq hlook
  -- entries that are passed over
  have hpassed : (∀ path, ¬Below m w.tree (directory ++ [name]) path) →
      Scanned r m D v w out (Below m w.tree (directory ++ [name])) out
        (afterCall m (symlinkMetadata m.root (directory ++ [name])) w) :=
    fun hnone => ⟨hlooked, hsees, fun path => by simp [hnone path]⟩
  unfold walkEntry
  simp only [holds_bind, holds_onDisk, hq _ _, hlook]
  cases node with
  | link absolute target =>
    refine hpassed fun path hbelow => ?_
    rw [below_iff_of_not_dir h.tame (by rw [hnode]; simp), Files.content, hnode] at hbelow
    exact hbelow.2 rfl
  | dir =>
    dsimp only
    by_cases hstaging : name = stagingDir
    · rw [if_pos hstaging, holds_pure]
      refine hpassed ?_
      rintro path ⟨names, hnames, hlogical, -⟩
      rw [toLogical_staging (hnames.subset (by simp [hstaging]))] at hlogical
      cases hlogical
    · rw [if_neg hstaging]
      refine (hwalk rfl hlooked.tree hsees).mono (fun out' w' hw => ?_) fun _ w' hw =>
        ⟨hlooked.trans hw.1, hw.2⟩
      exact ⟨hlooked.trans hw.looked, hw.sees, hw.found⟩
  | file content modified =>
    have hbelow : ∀ path, Below m w.tree (directory ++ [name]) path ↔
        toLogical (directory ++ [name]) = some path := by
      intro path
      rw [below_iff_of_not_dir h.tame (by rw [hnode]; simp), Files.content, hnode]
      simp [Node.content?]
    dsimp only
    cases hlogical : toLogical (directory ++ [name]) with
    | none => exact hpassed fun path => by rw [hbelow, hlogical]; simp
    | some logical =>
      refine ⟨hlooked, hsees, fun path => ?_⟩
      rw [Table.getElem?_insert', hbelow, hlogical]
      by_cases heq : logical = path
      · simp [heq]
      · simp [heq]

theorem walk_holds (hq : m.Quiet) :
    ∀ (levels : ℕ) {w : World K} {directory : List Str} (out : Table Path DiskFile),
    Sees r m D v w → isDir w.tree (m.root ++ directory) = true →
      levels + directory.length = m.deepest →
      Holds (walk m levels directory out) w (Scanned r m D v w out (Below m w.tree directory))
        fun _ w' => Looked w w' ∧ Sees r m D v w' ∧ ¬Reaches m w.tree
  | 0, w, directory, out, h, hdir, hlevels => by
    refine ⟨.refl w, h, fun hreaches => ?_⟩
    have := hreaches directory .dir (isDir_iff.mp hdir)
    omega
  | levels + 1, w, directory, out, h, hdir, hlevels => by
    have hread := readDir_found h.tame hdir
    have hlooked := looked_of_tree (w := w) hq (readDir m.root directory) (by rw [hread])
    have hsees := h.call_look hq hread
    unfold walk
    simp only [holds_bind, holds_onDisk, holds_orFail, hq _ _, hread]
    refine ⟨?_, (by simp)⟩
    rintro _ ⟨⟩
    refine (holds_foldlM (fun done out' w' => Scanned r m D v w out
      (fun path => ∃ name ∈ done, Below m w.tree (directory ++ [name]) path) out' w') ?_ ?_).mono ?_
        fun _ _ hw => hw
    · intro done name todo out' w' hentries hw
      obtain ⟨node, hnode⟩ : ∃ node, w.tree[(m.root ++ directory) ++ [name]]? = some node :=
        mem_children.mp (by rw [hentries]; simp)
      rw [List.append_assoc, ← hw.looked.tree] at hnode
      refine (walkEntry_holds hq hw.sees hnode fun hdir' w'' htree hw'' => ?_).mono ?_ ?_
      · rw [← htree]
        refine walk_holds hq levels out' hw'' (isDir_iff.mpr ?_) ?_
        · rw [htree, hnode, hdir']
        · rw [List.length_append, List.length_singleton]
          omega
      · intro out'' w'' hw''
        refine ⟨hw.looked.trans hw''.looked, hw''.sees, fun path => ?_⟩
        rw [hw''.found, hw.found, hw.looked.tree, or_assoc]
        simp only [List.mem_append, List.mem_singleton, or_and_right, exists_or, exists_eq_left]
      · rintro error w'' ⟨hlooked', hsees', hdeep⟩
        rw [hw.looked.tree] at hdeep
        exact ⟨hw.looked.trans hlooked', hsees', hdeep⟩
    · exact ⟨hlooked, hsees, fun path => by simp⟩
    · intro out' w' hw
      refine ⟨hw.looked, hw.sees, fun path => ?_⟩
      rw [hw.found, below_iff_of_dir h.tame hdir]

/-- **The scan finds the files that are there under names to sync.** -/
theorem scan_holds (hq : m.Quiet) (h : Sees r m D v w) :
    Holds (scan m) w
      (fun found w' => Looked w w' ∧ Sees r m D v w' ∧ isDir w.tree m.root = true ∧
        ∀ path, found[path]? ≠ none ↔
          ∃ names, toLogical names = some path ∧ Files.content w.tree (m.root ++ names) ≠ none)
      fun _ w' => Looked w w' ∧ Sees r m D v w' ∧
        (isDir w.tree m.root = true → ¬Reaches m w.tree) := by
  unfold scan
  simp only [holds_bind, holds_onDisk, hq _ _]
  rcases metadata_root m.root w.tree with ⟨node, hnode, hlook⟩ | hlook
  · have hlooked := looked_of_tree (w := w) hq (metadata m.root []) (by rw [hlook])
    have hsees : Sees r m D v (afterCall m (metadata m.root []) w) :=
      h.call_same hq (by rw [hlook]; exact ⟨by simp, h.tame, rfl⟩)
    rw [hlook]
    cases node with
    | dir =>
      have hdir : isDir (afterCall m (metadata m.root []) w).tree (m.root ++ []) = true := by
        rw [hlooked.tree, List.append_nil]
        exact isDir_iff.mpr hnode
      refine (walk_holds hq m.deepest ∅ hsees hdir (by simp)).mono ?_ ?_
      case refine_2 =>
        rintro error w' ⟨hlooked', hsees', hdeep⟩
        rw [hlooked.tree] at hdeep
        exact ⟨hlooked.trans hlooked', hsees', fun _ => hdeep⟩
      intro found w' hw
      refine ⟨hlooked.trans hw.looked, hw.sees, isDir_iff.mpr hnode, fun path => ?_⟩
      rw [hw.found, hlooked.tree]
      simp [Below]
    | file content modified =>
      exact ⟨hlooked, hsees, fun hdir => by rw [isDir_iff.mp hdir] at hnode; cases hnode⟩
    | link absolute target =>
      exact ⟨hlooked, hsees, fun hdir => by rw [isDir_iff.mp hdir] at hnode; cases hnode⟩
  · rw [hlook]
    refine ⟨looked_of_tree hq _ (by rw [hlook]; rfl), h.call_refused hq hlook, fun hdir => ?_⟩
    have hfound := metadata_found h.tame [] (by rw [List.append_nil]; exact isDir_iff.mp hdir) rfl
    rw [hlook] at hfound
    cases hfound

/-! ### The marker -/

theorem fromUtf8_asciiBytes :
    ∀ {text : Str}, (∀ c ∈ text, c.toNat < 0x80) → fromUtf8 (asciiBytes text) = some text
  | [], _ => rfl
  | c :: text, h => by
    have hc : c.toNat < 0x80 := h c (by simp)
    have hbyte : (UInt8.ofNat c.toNat).toNat = c.toNat := by
      rw [UInt8.toNat_ofNat']
      omega
    show fromUtf8 (UInt8.ofNat c.toNat :: asciiBytes text) = _
    unfold fromUtf8
    rw [hbyte, if_pos hc, fromUtf8_asciiBytes fun c hc => h c (List.mem_cons_of_mem _ hc),
      Char.ofNat_toNat]
    rfl

theorem trim_of_plain {text : Str} (h : ∀ c ∈ text, isWhitespace c = false) : trim text = text := by
  have hdrop : ∀ text : Str, (∀ c ∈ text, isWhitespace c = false) →
      text.dropWhile isWhitespace = text := by
    intro text h
    cases text with
    | nil => rfl
    | cons c text => simp [h c (by simp)]
  unfold trim
  rw [hdrop text h, hdrop _ fun c hc => h c (List.mem_reverse.mp hc), List.reverse_reverse]

theorem hexDigit_plain (n : Fin 16) :
    (Nat.digitChar n).toNat < 0x80 ∧ isWhitespace (Nat.digitChar n) = false := by
  revert n
  decide

theorem mem_toHex {id : Id} {c : Char} (h : c ∈ toHex id) : ∃ n : Fin 16, c = Nat.digitChar n := by
  obtain ⟨i, -, rfl⟩ := List.mem_map.mp h
  exact ⟨⟨_, Nat.mod_lt _ (by decide)⟩, rfl⟩

/-- A device knows its own marker. -/
theorem markerOf_toHex (device : DeviceId) : markerOf device (asciiBytes (toHex device)) = .ours := by
  have hascii : ∀ c ∈ toHex device, c.toNat < 0x80 := fun c hc => by
    obtain ⟨n, rfl⟩ := mem_toHex hc
    exact (hexDigit_plain n).1
  have hplain : ∀ c ∈ toHex device, isWhitespace c = false := fun c hc => by
    obtain ⟨n, rfl⟩ := mem_toHex hc
    exact (hexDigit_plain n).2
  unfold markerOf
  rw [fromUtf8_asciiBytes hascii]
  dsimp only
  rw [trim_of_plain hplain, if_pos rfl]

/-- Where the marker is. -/
def Machine.markerAt (m : Machine) : Loc Str := m.root ++ [marker]

theorem markerAt_not_staged : ¬m.Stages r m.markerAt := by
  rintro ⟨-, n, h⟩
  have hlength := congrArg List.length h
  simp [Machine.markerAt, Machine.part, Machine.staging] at hlength

/-- The folder has the device's marker. -/
def Marked (m : Machine) (device : DeviceId) (v : View) : Prop :=
  ∃ c, v.disk m.markerAt = some c ∧ markerOf device c = .ours

section
variable (hq : m.Quiet) (hmarker : D m.markerAt)
include hq hmarker

variable {E : FolderError → World K → Prop}

theorem readMarker_holds (h : Sees r m D v w) (device : DeviceId) :
    Holds (readMarker m device) w
      (fun answer w' => Looked w w' ∧ Sees r m D v w' ∧
        answer = ((v.disk m.markerAt).map (markerOf device)).getD .missing) E := by
  unfold readMarker
  simp only [holds_bind, holds_onDisk, hq _ _]
  have hdisk : Files.content w.tree m.markerAt = v.disk m.markerAt := h.content_eq markerAt_not_staged
  rcases read_cases h.tame (way_singleton marker) (fun node => h.tame.plain _ node hmarker) with
    ⟨c, hc, heq⟩ | ⟨hnone, error, heq⟩
  · have hlooked := looked_of_tree (w := w) hq (Files.read m.root [marker]) (by rw [heq])
    have hsees := h.call_look hq heq
    rw [heq]
    exact ⟨hlooked, hsees, by rw [← hdisk, Machine.markerAt, hc]; rfl⟩
  · have hlooked := looked_of_tree (w := w) hq (Files.read m.root [marker]) (by rw [heq]; rfl)
    have hsees := h.call_refused hq heq
    rw [heq]
    exact ⟨hlooked, hsees, by rw [← hdisk, Machine.markerAt, hnone]; rfl⟩

theorem writeMarker_holds (h : Sees r m D v w) (device : DeviceId) :
    Holds (writeMarker m device) w
      (fun _ w' => ∃ v', Sees r m D v' w' ∧
        (v' = v ∨ v' = v.setDisk r m m.markerAt (some (asciiBytes (toHex device)))) ∧
        (isDir w.tree m.root = true → w.tree[m.markerAt]? ≠ some .dir → Marked m device v')) E := by
  unfold writeMarker
  simp only [holds_bind, holds_get, holds_onDisk, holds_pure]
  rcases write_left h.tame (by simp) (way_singleton marker) hmarker (m.clock w.tick)
      (asciiBytes (toHex device)) with
    ⟨-, hleft⟩ | ⟨⟨error, herror⟩, hleft⟩
  · refine ⟨_, h.call_update hq hleft, .inr rfl, fun _ _ =>
      ⟨asciiBytes (toHex device), ?_, markerOf_toHex device⟩⟩
    show hide r m _ m.markerAt = _
    rw [hide, if_neg markerAt_not_staged]
    exact put_self ..
  · refine ⟨v, h.call_same hq hleft, .inl rfl, fun hroot hdir => ?_⟩
    rw [write_in_root hroot hdir (fun node => h.tame.plain _ node hmarker)] at herror
    cases herror

/-- **The check of the marker changes nothing, or writes the marker.** -/
theorem checkStorage_holds (h : Sees r m D v w) (found : Table Path DiskFile) :
    Holds (checkStorage m found) w
      (fun _ w' => ∃ v', Sees r m D v' w' ∧
        (v' = v ∨ v' = v.setDisk r m m.markerAt (some (asciiBytes (toHex w.store.device)))) ∧
        (isDir w.tree m.root = true → w.tree[m.markerAt]? ≠ some .dir → Marked m w.store.device v'))
      fun _ w' => Sees r m D v w' := by
  unfold checkStorage
  simp only [holds_bind, holds_get]
  refine (readMarker_holds hq hmarker h w.store.device).mono ?_ fun _ _ hw => hw
  rintro answer w₁ ⟨hlooked, h₁, hanswer⟩
  have hwrite := writeMarker_holds hq hmarker h₁ w.store.device (E := fun _ w' => Sees r m D v w')
  rw [hlooked.tree] at hwrite
  cases answer with
  | ours =>
    refine ⟨v, h₁, .inl rfl, fun _ _ => ?_⟩
    cases hdisk : v.disk m.markerAt with
    | none =>
      rw [hdisk] at hanswer
      cases hanswer
    | some c =>
      rw [hdisk] at hanswer
      exact ⟨c, hdisk, hanswer.symm⟩
  | foreign named => exact h₁
  | missing =>
    rw [holds_bind, holds_get]
    split_ifs
    · exact hwrite
    · exact hwrite
    · exact h₁

/-- **A folder that has the marker passes the check, and nothing changes.** -/
theorem checkStorage_marked (h : Sees r m D v w) (found : Table Path DiskFile)
    (hmarked : Marked m w.store.device v)
    :
    Holds (checkStorage m found) w (fun _ w' => Looked w w' ∧ Sees r m D v w') E := by
  obtain ⟨c, hc, hours⟩ := hmarked
  unfold checkStorage
  simp only [holds_bind, holds_get]
  refine (readMarker_holds hq hmarker h w.store.device).mono ?_ fun _ _ hw => hw
  rintro answer w₁ ⟨hlooked, h₁, hanswer⟩
  rw [hc] at hanswer
  obtain rfl : answer = .ours := hanswer.trans hours
  exact ⟨hlooked, h₁⟩

end

end Folder
end Itsanas
