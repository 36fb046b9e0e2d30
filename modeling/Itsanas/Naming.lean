/-
# Names beside a name

A path is a directory part, up to and with its last slash, and a name. A marker goes into the
name before its extension, and where it goes does not depend on the marker
(`withMarker_eq`). So a marked path is in the same directory, two marked paths are equal only if
both parts are, when no marker has a dot or a slash (`withMarker_inj`), and of everything `validate`
asks only the two length limits can fail for a marked path whose original passed
(`validate_withMarker`). A name keeps its extension at the end if its first character takes one
byte: the source looks for the dot from byte 1 on, which in any other name is no character's start
(`marker_keeps_type`).
-/
import Itsanas.Path

namespace Itsanas

/-! ### Directory and name -/

/-- A path up to and with its last slash. -/
def dirOf (path : Path) : Str :=
  match rsplit '/' path with
  | some (d, _) => d ++ ['/']
  | none => []

/-- A path after its last slash. -/
def nameOf (path : Path) : Str :=
  match rsplit '/' path with
  | some (_, n) => n
  | none => path

variable {c : Char}

theorem not_mem_of_rsplit_none : ∀ {s : Str}, rsplit c s = none → c ∉ s
  | [], _ => by simp
  | x :: xs, h => by
    unfold rsplit at h
    cases hx : rsplit c xs with
    | some r =>
      rw [hx] at h
      cases h
    | none =>
      rw [hx] at h
      dsimp only at h
      split_ifs at h with hc
      rw [List.mem_cons, not_or]
      exact ⟨Ne.symm hc, not_mem_of_rsplit_none hx⟩

theorem not_mem_of_rsplit : ∀ {s a b : Str}, rsplit c s = some (a, b) → c ∉ b
  | x :: xs, a, b, h => by
    unfold rsplit at h
    cases hx : rsplit c xs with
    | some r =>
      rw [hx] at h
      cases h
      exact not_mem_of_rsplit hx
    | none =>
      rw [hx] at h
      dsimp only at h
      split_ifs at h with hc
      cases h
      exact not_mem_of_rsplit_none hx

theorem rsplit_of_not_mem {s : Str} (h : c ∉ s) : rsplit c s = none := by
  cases hs : rsplit c s with
  | none => rfl
  | some r =>
    have hsplit := eq_of_rsplit (a := r.1) (b := r.2) hs
    exact absurd (hsplit ▸ by simp) h

theorem rsplit_append {b : Str} (h : c ∉ b) : ∀ a : Str, rsplit c (a ++ c :: b) = some (a, b)
  | [] => by simp [rsplit, rsplit_of_not_mem h]
  | x :: a => by rw [List.cons_append, rsplit, rsplit_append h a]

theorem dirOf_append_nameOf (p : Path) : dirOf p ++ nameOf p = p := by
  unfold dirOf nameOf
  cases h : rsplit '/' p with
  | none => rfl
  | some r => rw [eq_of_rsplit (a := r.1) (b := r.2) h]; simp

theorem slash_not_mem_nameOf (p : Path) : '/' ∉ nameOf p := by
  unfold nameOf
  cases h : rsplit '/' p with
  | none => exact not_mem_of_rsplit_none h
  | some r => exact not_mem_of_rsplit (a := r.1) h

theorem dirOf_cases (p : Path) : dirOf p = [] ∨ ∃ d, dirOf p = d ++ ['/'] := by
  unfold dirOf
  cases rsplit '/' p with
  | none => exact .inl rfl
  | some r => exact .inr ⟨r.1, rfl⟩

/-- A directory part and a name are the parts of what they make. -/
theorem parts_append {p : Path} {n : Str} (hn : '/' ∉ n) :
    dirOf (dirOf p ++ n) = dirOf p ∧ nameOf (dirOf p ++ n) = n := by
  rcases dirOf_cases p with h | ⟨d, h⟩
  · rw [h, List.nil_append]
    unfold dirOf nameOf
    rw [rsplit_of_not_mem hn]
    exact ⟨rfl, rfl⟩
  · have hsplit : dirOf p ++ n = d ++ '/' :: n := by rw [h]; simp
    rw [hsplit, h]
    unfold dirOf nameOf
    rw [rsplit_append hn]
    exact ⟨rfl, rfl⟩

/-! ### Where the marker goes -/

/-- A name before the place of its marker. -/
def beforeMarker : Str → Str
  | [] => []
  | c :: rest =>
    if c.utf8Size = 1 then
      match rsplit '.' rest with
      | some (stem, _) => c :: stem
      | none => c :: rest
    else c :: rest

/-- A name after the place of its marker: its extension, with the dot, or nothing. -/
def afterMarker : Str → Str
  | [] => []
  | c :: rest =>
    if c.utf8Size = 1 then
      match rsplit '.' rest with
      | some (_, ext) => '.' :: ext
      | none => []
    else []

theorem before_append_after (name : Str) : beforeMarker name ++ afterMarker name = name := by
  cases name with
  | nil => rfl
  | cons c rest =>
    unfold beforeMarker afterMarker
    dsimp only
    split_ifs
    · cases h : rsplit '.' rest with
      | none => simp
      | some r =>
        rw [eq_of_rsplit (a := r.1) (b := r.2) h]
        simp
    · simp

theorem withMarker_eq (path : Path) (marker : Str) : withMarker path marker =
    dirOf path ++ (beforeMarker (nameOf path) ++ '.' :: marker ++ afterMarker (nameOf path)) := by
  have hname : ∀ directory name : Str, (match name with
      | [] => directory ++ name ++ '.' :: marker
      | c :: rest =>
        if c.utf8Size = 1 then
          match rsplit '.' rest with
          | some (stem, ext) => directory ++ (c :: stem) ++ '.' :: marker ++ '.' :: ext
          | none => directory ++ name ++ '.' :: marker
        else directory ++ name ++ '.' :: marker) =
      directory ++ (beforeMarker name ++ '.' :: marker ++ afterMarker name) := by
    intro directory name
    cases name with
    | nil => simp [beforeMarker, afterMarker]
    | cons c rest =>
      unfold beforeMarker afterMarker
      dsimp only
      split_ifs
      · cases rsplit '.' rest <;> simp
      · simp
  unfold withMarker dirOf nameOf
  cases rsplit '/' path <;> exact hname _ _

theorem afterMarker_cases (name : Str) :
    afterMarker name = [] ∨ ∃ ext, afterMarker name = '.' :: ext ∧ '.' ∉ ext := by
  cases name with
  | nil => exact .inl rfl
  | cons c rest =>
    unfold afterMarker
    dsimp only
    split_ifs
    · cases h : rsplit '.' rest with
      | none => exact .inl rfl
      | some r => exact .inr ⟨r.2, rfl, not_mem_of_rsplit (a := r.1) h⟩
    · exact .inl rfl

/-- An extension starts at the last dot past a first character of one byte. -/
theorem afterMarker_ne_nil (hc : c.utf8Size = 1) (a b : Str) :
    afterMarker (c :: (a ++ '.' :: b)) ≠ [] := by
  unfold afterMarker
  dsimp only
  rw [if_pos hc]
  cases h : rsplit '.' (a ++ '.' :: b) with
  | none => exact absurd (by simp) (not_mem_of_rsplit_none h)
  | some r => simp

variable {name : Str}

theorem utf8Size_of_afterMarker {ext : Str} (h : afterMarker name = '.' :: ext) :
    ∃ c stem, beforeMarker name = c :: stem ∧ c.utf8Size = 1 := by
  cases name with
  | nil => cases h
  | cons c rest =>
    unfold afterMarker at h
    unfold beforeMarker
    dsimp only at h ⊢
    split_ifs at h ⊢ with hc
    cases hr : rsplit '.' rest with
    | none =>
      rw [hr] at h
      cases h
    | some r => exact ⟨c, r.1, rfl, hc⟩

variable {marker : Str}

/-- The name of a marked path. -/
theorem nameOf_withMarker (path : Path) (hm : '/' ∉ marker) :
    dirOf (withMarker path marker) = dirOf path ∧
      nameOf (withMarker path marker) =
        beforeMarker (nameOf path) ++ '.' :: marker ++ afterMarker (nameOf path) := by
  rw [withMarker_eq]
  apply parts_append
  have hname := slash_not_mem_nameOf path
  rw [← before_append_after (nameOf path), List.mem_append, not_or] at hname
  simp [hname, hm]

/-- A name and a marker without a dot are told apart by the last dot. -/
theorem marked_inj {a a' m m' : Str} (hm : '.' ∉ m) (hm' : '.' ∉ m')
    (h : a ++ '.' :: m = a' ++ '.' :: m') :
    a = a' ∧ m = m' := by
  have hsplit := congrArg (rsplit '.') h
  rw [rsplit_append hm, rsplit_append hm'] at hsplit
  exact Prod.mk.inj (Option.some.inj hsplit)

/-- **A marked path says what was marked, and with what.** -/
theorem withMarker_inj {p q : Path} {m m' : Str} (hdot : '.' ∉ m) (hdot' : '.' ∉ m')
    (hm : '/' ∉ m) (hm' : '/' ∉ m') (h : withMarker p m = withMarker q m') : p = q ∧ m = m' := by
  obtain ⟨hdir, hname⟩ := nameOf_withMarker p hm
  obtain ⟨hdir', hname'⟩ := nameOf_withMarker q hm'
  rw [h] at hdir hname
  have hdirs : dirOf p = dirOf q := hdir.symm.trans hdir'
  have hnames := hname.symm.trans hname'
  -- an extension is told by the dot before it: one side cannot have one and the other none
  have hone : ∀ {x y : Path} {n n' : Str}, '.' ∉ n → afterMarker (nameOf x) = [] →
      ∀ ext, afterMarker (nameOf y) = '.' :: ext → '.' ∉ ext →
      beforeMarker (nameOf x) ++ '.' :: n ++ [] =
          beforeMarker (nameOf y) ++ '.' :: n' ++ '.' :: ext → False := by
    intro x y n n' hn hx ext hy hext heq
    obtain ⟨c, stem, hbefore, hc⟩ := utf8Size_of_afterMarker hy
    rw [List.append_nil] at heq
    have hstem : beforeMarker (nameOf x) = beforeMarker (nameOf y) ++ '.' :: n' :=
      (marked_inj hn hext heq).1
    have hwhole : nameOf x = c :: (stem ++ '.' :: n') := by
      rw [← before_append_after (nameOf x), hx, List.append_nil, hstem, hbefore, List.cons_append]
    exact afterMarker_ne_nil hc stem n' (hwhole ▸ hx)
  have hparts : beforeMarker (nameOf p) = beforeMarker (nameOf q) ∧ m = m' ∧
      afterMarker (nameOf p) = afterMarker (nameOf q) := by
    rcases afterMarker_cases (nameOf p) with hp | ⟨ext, hp, hext⟩ <;>
      rcases afterMarker_cases (nameOf q) with hq | ⟨ext', hq, hext'⟩
    · rw [hp, hq, List.append_nil, List.append_nil] at hnames
      obtain ⟨hbefore, hmarker⟩ := marked_inj hdot hdot' hnames
      exact ⟨hbefore, hmarker, hp.trans hq.symm⟩
    · rw [hp, hq] at hnames
      exact (hone hdot hp ext' hq hext' hnames).elim
    · rw [hp, hq] at hnames
      exact (hone hdot' hq ext hp hext hnames.symm).elim
    · rw [hp, hq] at hnames ⊢
      obtain ⟨hfront, hexts⟩ := marked_inj hext hext' hnames
      obtain ⟨hbefore, hmarker⟩ := marked_inj hdot hdot' hfront
      exact ⟨hbefore, hmarker, by rw [hexts]⟩
  refine ⟨?_, hparts.2.1⟩
  rw [← dirOf_append_nameOf p, ← dirOf_append_nameOf q, hdirs, ← before_append_after (nameOf p),
    ← before_append_after (nameOf q), hparts.1, hparts.2.2]

theorem withMarker_ne (path : Path) (marker : Str) : withMarker path marker ≠ path := by
  intro h
  have := congrArg List.length h
  rw [length_withMarker] at this
  omega

/-! ### Components -/

theorem slash_not_mem_of_splitOn : ∀ {path : Path}, name ∈ path.splitOn '/' → '/' ∉ name := by
  intro path
  induction h : path.length using Nat.strongRecOn generalizing path name with
  | ind n ih =>
    intro hname
    cases hr : rsplit '/' path with
    | none =>
      have hpath := not_mem_of_rsplit_none hr
      rw [List.splitOn_eq_singleton hpath, List.mem_singleton] at hname
      rwa [hname]
    | some r =>
      have hsplit := eq_of_rsplit (a := r.1) (b := r.2) hr
      have hlast := not_mem_of_rsplit (a := r.1) (b := r.2) hr
      rw [hsplit, List.splitOn_append_cons_self, List.splitOn_eq_singleton hlast, List.mem_append,
        List.mem_singleton] at hname
      rcases hname with hname | rfl
      · exact ih r.1.length (by rw [← h, hsplit]; simp) rfl hname
      · exact hlast

/-- The components of a path are those of its directory and its name. -/
theorem splitOn_eq (path : Path) :
    path.splitOn '/' = (path.splitOn '/').dropLast ++ [nameOf path] ∧
      ∀ n, '/' ∉ n → (dirOf path ++ n).splitOn '/' = (path.splitOn '/').dropLast ++ [n] := by
  have hslash := slash_not_mem_nameOf path
  have hwhole := dirOf_append_nameOf path
  rcases dirOf_cases path with h | ⟨d, h⟩
  · rw [h, List.nil_append] at hwhole
    rw [← hwhole, List.splitOn_eq_singleton hslash]
    refine ⟨by simp [hwhole], fun n hn => ?_⟩
    rw [hwhole, h, List.nil_append, List.splitOn_eq_singleton hn]
    rfl
  · have hd : ∀ n, '/' ∉ n → (dirOf path ++ n).splitOn '/' = d.splitOn '/' ++ [n] := by
      intro n hn
      rw [h, List.append_assoc, List.singleton_append, List.splitOn_append_cons_self,
        List.splitOn_eq_singleton hn]
    have hpath := hd _ hslash
    rw [hwhole] at hpath
    rw [hpath, List.dropLast_concat]
    exact ⟨rfl, hd⟩

/-- A marked path has its original's directories. -/
theorem splitOn_withMarker (path : Path) (hm : '/' ∉ marker) :
    (withMarker path marker).splitOn '/' =
      (path.splitOn '/').dropLast ++ [nameOf (withMarker path marker)] := by
  obtain ⟨hdir, -⟩ := nameOf_withMarker path hm
  conv_lhs => rw [← dirOf_append_nameOf (withMarker path marker), hdir]
  exact (splitOn_eq path).2 _ (slash_not_mem_nameOf _)

/-! ### Which marked paths are paths -/

/-- What is asked of a component. -/
theorem rejectComponent_eq_none {component : Str} : rejectComponent component = none ↔
    component ≠ [] ∧ utf8Len component ≤ maxComponentLen ∧
      (component ≠ ['.'] ∧ component ≠ ['.', '.']) ∧
      (component.getLast? ≠ some ' ' ∧ component.getLast? ≠ some '.') ∧
      windowsReserved.contains ((component.takeWhile (· ≠ '.')).map Char.toLower) = false := by
  unfold rejectComponent
  simp only [List.isEmpty_iff, Bool.or_eq_true, decide_eq_true_eq]
  split_ifs with hempty hlong hdots hlast hreserved
  · simp [hempty]
  · simp [Nat.not_le.mpr hlong]
  · rcases hdots with hdots | hdots <;> simp [hdots]
  · rcases hlast with hlast | hlast <;> simp [hlast]
  · simp_all
  · simp_all

/-- What is asked of a path. -/
theorem validate_iff {path : Path} : validate path = .ok () ↔
    path ≠ [] ∧ utf8Len path ≤ maxPathLen ∧ '\\' ∉ path ∧ path.head? ≠ some '/' ∧
      path.getLast? ≠ some '/' ∧ path.any isControl = false ∧
      ¬(path.head?.map Char.utf8Size = some 1 ∧ path[1]? = some ':') ∧
      ∀ component ∈ path.splitOn '/', rejectComponent component = none := by
  unfold validate
  simp only [List.isEmpty_iff, List.contains_iff_mem, Bool.and_eq_true, decide_eq_true_eq]
  cases hcomponents : (path.splitOn '/').findSome? rejectComponent with
  | none =>
    rw [List.findSome?_eq_none_iff] at hcomponents
    split_ifs <;> simp_all
  | some reason =>
    obtain ⟨component, hmem, hreason⟩ := List.exists_of_findSome?_eq_some hcomponents
    have hnot : ¬∀ component ∈ path.splitOn '/', rejectComponent component = none := fun hall => by
      rw [hall component hmem] at hreason
      cases hreason
    split_ifs <;> simp_all

theorem utf8Len_append (a b : Str) : utf8Len (a ++ b) = utf8Len a + utf8Len b := by simp [utf8Len]

/-- A marker that adds nothing a path may not have. -/
structure PlainMarker (marker : Str) : Prop where
  slash : '/' ∉ marker
  backslash : '\\' ∉ marker
  control : marker.any isControl = false
  last : ∃ c, marker.getLast? = some c ∧ c ≠ ' ' ∧ c ≠ '.' ∧ c ≠ '/'

/-- The bytes a marker adds to a path, with its dot. -/
def markerLen (marker : Str) : ℕ := utf8Len marker + 1

theorem utf8Len_marked (a b marker : Str) :
    utf8Len (a ++ '.' :: marker ++ b) = utf8Len (a ++ b) + markerLen marker := by
  have hdot : utf8Len ('.' :: marker) = 1 + utf8Len marker := by simp [utf8Len, Char.utf8Size]
  rw [utf8Len_append, utf8Len_append, utf8Len_append, hdot, markerLen]
  omega

/-- What a name starts with, up to a dot, is the same with a marker in it. -/
theorem takeWhile_marked {a b : Str} (marker : Str) (hb : b = [] ∨ ∃ ext, b = '.' :: ext) :
    (a ++ '.' :: marker ++ b).takeWhile (· ≠ '.') = (a ++ b).takeWhile (· ≠ '.') := by
  have hcut : ∀ a x : Str, (a ++ '.' :: x).takeWhile (· ≠ '.') = a.takeWhile (· ≠ '.') := by
    intro a x
    induction a with
    | nil => simp
    | cons c a ih =>
      rw [List.cons_append, List.takeWhile_cons, List.takeWhile_cons, ih]
  rw [List.append_assoc, List.cons_append, hcut]
  rcases hb with rfl | ⟨ext, rfl⟩
  · rw [List.append_nil]
  · rw [hcut]

theorem afterMarker_dot (name : Str) : afterMarker name = [] ∨ ∃ ext, afterMarker name = '.' :: ext :=
  (afterMarker_cases name).imp_right fun ⟨ext, h, _⟩ => ⟨ext, h⟩

/-- The last character of a marked name is that of the name or of the marker. -/
theorem getLast?_marked {a b marker : Str} (hc : marker.getLast? = some c) :
    (a ++ '.' :: marker ++ b).getLast? = if b = [] then some c else (a ++ b).getLast? := by
  split_ifs with hb
  · rw [hb, List.append_nil, List.getLast?_append, List.getLast?_cons, hc]
    rfl
  · rw [List.getLast?_append_of_ne_nil _ hb, List.getLast?_append_of_ne_nil _ hb]

section
variable {path : Path} {marker : Str}

/-- Of a component, only its length can be wrong once the marker is in it. -/
theorem rejectComponent_marked (hm : PlainMarker marker)
    (hvalid : rejectComponent (nameOf path) = none) :
    rejectComponent (beforeMarker (nameOf path) ++ '.' :: marker ++ afterMarker (nameOf path)) = none ↔
      utf8Len (nameOf path) + markerLen marker ≤ maxComponentLen := by
  obtain ⟨c, hlast, hspace, hdot, -⟩ := hm.last
  obtain ⟨-, -, -, hends, hreserved⟩ := rejectComponent_eq_none.mp hvalid
  have hwhole := before_append_after (nameOf path)
  have hlasts : ∀ x : Char, x = ' ' ∨ x = '.' →
      (beforeMarker (nameOf path) ++ '.' :: marker ++ afterMarker (nameOf path)).getLast? ≠
          some x := by
    intro x hx
    rw [getLast?_marked hlast, hwhole]
    split_ifs
    · rcases hx with rfl | rfl
      · simpa using hspace
      · simpa using hdot
    · rcases hx with rfl | rfl
      · exact hends.1
      · exact hends.2
  have hstem :=
    takeWhile_marked (a := beforeMarker (nameOf path)) marker (afterMarker_dot (nameOf path))
  rw [hwhole] at hstem
  rw [rejectComponent_eq_none, utf8Len_marked, hwhole, hstem]
  refine ⟨fun h => h.2.1, fun hlen => ⟨by simp, hlen, ⟨fun h => ?_, fun h => ?_⟩, ⟨?_, ?_⟩, hreserved⟩⟩
  · exact hlasts '.' (.inr rfl) (by rw [h]; rfl)
  · exact hlasts '.' (.inr rfl) (by rw [h]; rfl)
  · exact hlasts ' ' (.inl rfl)
  · exact hlasts '.' (.inr rfl)

theorem beforeMarker_ne_nil (h : name ≠ []) : beforeMarker name ≠ [] := by
  cases name with
  | nil => exact absurd rfl h
  | cons c rest =>
    unfold beforeMarker
    dsimp only
    split_ifs
    · cases rsplit '.' rest <;> simp
    · simp

/-- A character of a marked path is one of the path's, of the marker's, or the dot. -/
theorem mem_withMarker : c ∈ withMarker path marker ↔ c ∈ path ∨ c = '.' ∨ c ∈ marker := by
  conv_rhs => rw [← dirOf_append_nameOf path, ← before_append_after (nameOf path)]
  rw [withMarker_eq]
  simp only [List.mem_append, List.mem_cons]
  tauto

/-- A marked path starts as its original does: with the first character, and a second that is
the same or the dot. -/
theorem withMarker_start (marker : Str) (hname : nameOf path ≠ []) :
    (withMarker path marker).head? = path.head? ∧
      ((withMarker path marker)[1]? = path[1]? ∨ (withMarker path marker)[1]? = some '.') := by
  obtain ⟨c, front, hfront⟩ := List.exists_cons_of_ne_nil
    (show dirOf path ++ beforeMarker (nameOf path) ≠ [] by simp [beforeMarker_ne_nil hname])
  have hpath : path = c :: (front ++ afterMarker (nameOf path)) := by
    rw [← List.cons_append, ← hfront, List.append_assoc, before_append_after, dirOf_append_nameOf]
  have hmarked : withMarker path marker =
      c :: (front ++ '.' :: marker ++ afterMarker (nameOf path)) := by
    rw [withMarker_eq, ← List.append_assoc, ← List.append_assoc, hfront]
    rfl
  rw [hmarked]
  refine ⟨by rw [hpath]; rfl, ?_⟩
  cases front with
  | nil => exact .inr rfl
  | cons c' front => exact .inl (by rw [hpath]; rfl)

/-- **Only its length can make a marked path invalid.** -/
theorem validate_withMarker (hm : PlainMarker marker) (hvalid : validate path = .ok ()) :
    validate (withMarker path marker) = .ok () ↔
      utf8Len (nameOf path) + markerLen marker ≤ maxComponentLen ∧
        utf8Len path + markerLen marker ≤ maxPathLen := by
  obtain ⟨hempty, -, hbackslash, habsolute, htrailing, hcontrol, hdrive, hcomponents⟩ :=
    validate_iff.mp hvalid
  obtain ⟨c, hlast, -, -, hslash⟩ := hm.last
  have hname : nameOf path ∈ path.splitOn '/' := by
    rw [(splitOn_eq path).1]
    simp
  have hnamed := rejectComponent_eq_none.mp (hcomponents _ hname)
  have hstart := withMarker_start marker hnamed.1
  have hlen : utf8Len (withMarker path marker) = utf8Len path + markerLen marker := by
    rw [withMarker_eq, utf8Len_append, utf8Len_marked, before_append_after, ← Nat.add_assoc,
      ← utf8Len_append, dirOf_append_nameOf]
  have hends : (withMarker path marker).getLast? ≠ some '/' := by
    intro hend
    have hmem : '/' ∈ nameOf (withMarker path marker) := by
      refine List.mem_of_getLast? (?_ : _ = some '/')
      rw [← hend]
      conv_rhs => rw [← dirOf_append_nameOf (withMarker path marker)]
      rw [List.getLast?_append_of_ne_nil]
      rw [(nameOf_withMarker path hm.slash).2]
      simp
    exact slash_not_mem_nameOf _ hmem
  have hcomponent := rejectComponent_marked hm (hcomponents _ hname)
  rw [validate_iff, hlen]
  constructor
  · rintro ⟨-, hlong, -, -, -, -, -, hall⟩
    refine ⟨hcomponent.mp ?_, hlong⟩
    rw [← (nameOf_withMarker path hm.slash).2]
    apply hall
    rw [splitOn_withMarker path hm.slash]
    simp
  · rintro ⟨hshort, hlong⟩
    refine ⟨?_, hlong, ?_, ?_, hends, ?_, ?_, ?_⟩
    · rw [withMarker_eq]
      simp
    · rw [mem_withMarker]
      simp [hbackslash, hm.backslash]
    · rw [hstart.1]
      exact habsolute
    · rw [List.any_eq_false]
      intro x hx
      rcases mem_withMarker.mp hx with hx | rfl | hx
      · exact List.any_eq_false.mp hcontrol x hx
      · decide
      · exact List.any_eq_false.mp hm.control x hx
    · rintro ⟨hhead, hcolon⟩
      rw [hstart.1] at hhead
      rcases hstart.2 with hsecond | hsecond
      · exact hdrive ⟨hhead, hsecond ▸ hcolon⟩
      · rw [hsecond] at hcolon
        cases hcolon
    · intro component hmem
      rw [splitOn_withMarker path hm.slash, List.mem_append, List.mem_singleton] at hmem
      rcases hmem with hmem | rfl
      · exact hcomponents component (List.mem_of_mem_dropLast hmem)
      · rw [(nameOf_withMarker path hm.slash).2]
        exact hcomponent.mpr hshort

end

/-! ### Markers of plain characters -/

/-- A character of one byte that a name may have anywhere. -/
def plainChar (c : Char) : Bool :=
  c ≠ '/' && c ≠ '\\' && c ≠ ' ' && c ≠ '.' && !isControl c && c.utf8Size = 1

theorem plainChar_digitChar (n : ℕ) : plainChar (Nat.digitChar n) = true := by
  by_cases h : n < 17
  · have hall : ∀ i : Fin 17, plainChar (Nat.digitChar i) = true := by decide
    exact hall ⟨n, h⟩
  · have hstar : Nat.digitChar n = '*' := by
      unfold Nat.digitChar
      repeat rw [if_neg (by omega)]
    rw [hstar]
    decide

theorem mem_toDigits {n : ℕ} (h : c ∈ Nat.toDigits 10 n) : ∃ k, c = Nat.digitChar k := by
  have hdigit := Nat.isDigit_of_mem_toDigits (by decide) (by decide) h
  have hall : ∀ k : Fin 10, Char.ofNat (48 + k) = Nat.digitChar k := by decide
  rw [Char.isDigit, Bool.and_eq_true, decide_eq_true_eq, decide_eq_true_eq] at hdigit
  have hlow : 48 ≤ c.toNat := hdigit.1
  have hhigh : c.toNat ≤ 57 := hdigit.2
  refine ⟨c.toNat - 48, ?_⟩
  rw [← hall ⟨c.toNat - 48, by omega⟩]
  show c = Char.ofNat (48 + (c.toNat - 48))
  rw [Nat.add_sub_cancel' hlow, Char.ofNat_toNat]

theorem length_short (id : Id) : (short id).length = 12 := (List.length_map _).trans List.length_range

theorem mem_short {id : Id} (h : c ∈ short id) : ∃ k, c = Nat.digitChar k := by
  obtain ⟨i, -, rfl⟩ := List.mem_map.mp h
  exact ⟨_, rfl⟩

theorem plainMarker_of_plain (h : ∀ c ∈ marker, plainChar c = true) (hne : marker ≠ []) :
    PlainMarker marker ∧ utf8Len marker = marker.length := by
  have hplain : ∀ c ∈ marker, c ≠ '/' ∧ c ≠ '\\' ∧ c ≠ ' ' ∧ c ≠ '.' ∧ isControl c = false ∧
      c.utf8Size = 1 := by
    intro c hc
    have := h c hc
    simp only [plainChar, Bool.and_eq_true, decide_eq_true_eq, Bool.not_eq_true'] at this
    obtain ⟨⟨⟨⟨⟨h₁, h₂⟩, h₃⟩, h₄⟩, h₅⟩, h₆⟩ := this
    exact ⟨h₁, h₂, h₃, h₄, h₅, h₆⟩
  refine ⟨⟨fun hin => (hplain _ hin).1 rfl, fun hin => (hplain _ hin).2.1 rfl, ?_, ?_⟩, ?_⟩
  · exact List.any_eq_false.mpr fun c hc => by simp [(hplain c hc).2.2.2.2.1]
  · have hmem := hplain _ (List.getLast_mem hne)
    exact ⟨_, List.getLast?_eq_some_getLast hne, hmem.2.2.1, hmem.2.2.2.1, hmem.1⟩
  · have hone : marker.map Char.utf8Size = List.replicate marker.length 1 :=
      List.map_eq_replicate_iff.mpr fun c hc => (hplain c hc).2.2.2.2.2
    rw [utf8Len, hone, List.sum_replicate, smul_eq_mul, Nat.mul_one]

/-! ### What a marked name keeps -/

/-- The last dot of a name and what stands around it. -/
theorem parts_of_extension {stem ext : Str} (hext : '.' ∉ ext) :
    (c.utf8Size = 1 → beforeMarker (c :: stem ++ '.' :: ext) = c :: stem ∧
      afterMarker (c :: stem ++ '.' :: ext) = '.' :: ext) ∧
    (c.utf8Size ≠ 1 → beforeMarker (c :: stem ++ '.' :: ext) = c :: stem ++ '.' :: ext ∧
      afterMarker (c :: stem ++ '.' :: ext) = []) := by
  rw [List.cons_append]
  unfold beforeMarker afterMarker
  dsimp only
  constructor
  · intro hc
    rw [if_pos hc, if_pos hc, rsplit_append hext]
    exact ⟨rfl, rfl⟩
  · intro hc
    rw [if_neg hc, if_neg hc]
    exact ⟨rfl, rfl⟩

/-- What ends with a marker ends with an extension only if the marker does. -/
theorem extension_suffix_iff {front ext marker : Str} (hext : '.' ∉ ext) :
    '.' :: ext <:+ front ++ '.' :: marker ↔ '.' :: ext <:+ '.' :: marker := by
  constructor
  · intro h
    rcases List.suffix_or_suffix_of_suffix h (List.suffix_append front ('.' :: marker)) with h | h
    · exact h
    · -- a longer extension would have the marker's dot in it
      obtain ⟨before, hbefore⟩ := h
      cases before with
      | nil => exact (List.nil_append _ ▸ hbefore) ▸ List.suffix_rfl
      | cons c before =>
        obtain ⟨-, htail⟩ := List.cons.inj hbefore
        exact absurd (htail ▸ List.mem_append_right _ List.mem_cons_self) hext
  · intro h
    exact h.trans (List.suffix_append front ('.' :: marker))

/-- **A copy keeps its directory and its stem, and its type if its name begins with one byte.** The
directory is kept; where the name has a stem and an extension, the copy ends with the extension if
and only if the first character takes one byte or the marker itself ends so, and holds the stem in
any case; and for markers without a dot or a slash the copy says what was marked, and with what. -/
theorem marker_keeps_type (path : Path) (marker : Str) :
    (dirOf path <+: withMarker path marker ∧
      ('/' ∉ marker → dirOf (withMarker path marker) = dirOf path)) ∧
    (∀ stem ext : Str, nameOf path = stem ++ '.' :: ext → '.' ∉ ext → stem ≠ [] → ext ≠ [] →
      (('.' :: ext <:+ withMarker path marker ∧ stem <:+: withMarker path marker) ↔
        (stem.head?.map Char.utf8Size = some 1 ∨ '.' :: ext <:+ '.' :: marker))) ∧
    ∀ (path' : Path) (marker' : Str), '.' ∉ marker → '/' ∉ marker → '.' ∉ marker' → '/' ∉ marker' →
      (path, marker) ≠ (path', marker') → withMarker path marker ≠ withMarker path' marker' := by
  refine ⟨⟨?_, fun hm => (nameOf_withMarker path hm).1⟩, ?_, ?_⟩
  · rw [withMarker_eq]
    exact List.prefix_append _ _
  · intro stem ext hname hext hstem _
    obtain ⟨c, rest, rfl⟩ := List.exists_cons_of_ne_nil hstem
    obtain ⟨hone, hmore⟩ := @parts_of_extension c rest ext hext
    rw [withMarker_eq, hname]
    by_cases hc : c.utf8Size = 1
    · obtain ⟨hbefore, hafter⟩ := hone hc
      rw [hbefore, hafter]
      have hends : '.' :: ext <:+ dirOf path ++ (c :: rest ++ '.' :: marker ++ '.' :: ext) :=
        (List.suffix_append _ _).trans (List.suffix_append _ _)
      have hholds : c :: rest <:+: dirOf path ++ (c :: rest ++ '.' :: marker ++ '.' :: ext) :=
        ⟨dirOf path, '.' :: marker ++ '.' :: ext, by simp⟩
      exact ⟨fun _ => .inl (by simp [hc]), fun _ => ⟨hends, hholds⟩⟩
    · obtain ⟨hbefore, hafter⟩ := hmore hc
      rw [hbefore, hafter, List.append_nil, ← List.append_assoc, extension_suffix_iff hext]
      have hholds : c :: rest <:+: dirOf path ++ (c :: rest ++ '.' :: ext) ++ '.' :: marker :=
        ⟨dirOf path, '.' :: ext ++ '.' :: marker, by simp⟩
      exact ⟨fun h => .inr h.1, fun h => ⟨h.resolve_left (by simp [hc]), hholds⟩⟩
  · intro path' marker' hdot hslash hdot' hslash' hne heq
    obtain ⟨rfl, rfl⟩ := withMarker_inj hdot hdot' hslash hslash' heq
    exact hne rfl

theorem marker_keeps_type_report :
    dirOf (withMarker "d/report.pdf".toList "m".toList) = "d/".toList ∧
      '.' :: "pdf".toList <:+ withMarker "d/report.pdf".toList "m".toList ∧
      withMarker "d/report.pdf".toList "m".toList ≠ withMarker "d/report.pdf".toList "n".toList := by
  obtain ⟨⟨-, hdir⟩, htype, hapart⟩ := marker_keeps_type "d/report.pdf".toList "m".toList
  refine ⟨hdir (by decide), ?_, hapart _ _ (by decide) (by decide) (by decide) (by decide) (by decide)⟩
  exact ((htype "report".toList "pdf".toList (by decide +kernel) (by decide) (by decide)
    (by decide)).mpr
    (.inl (by decide))).1

/-- **A report whose name begins with an accent loses its type.** -/
theorem accented_loses_type :
    validate "été.pdf".toList = .ok () ∧ nameOf "été.pdf".toList =
      "été".toList ++ '.' :: "pdf".toList ∧
      siblingPath "été.pdf".toList 5 7 = "été.pdf.conflict-000000000000-7".toList ∧
      ¬ '.' :: "pdf".toList <:+ siblingPath "été.pdf".toList 5 7 := by
  decide +kernel

end Itsanas
