/-
# Logical paths, and where a losing version goes

`itsanas-store/src/path.rs` decides which strings name files (`validate`), and
`itsanas-sync/src/conflict.rs` decides, for two versions written apart, which
keeps the path (`winsOriginalPath`, a strict total order on author and
sequence) and what the other one's path is (`siblingPath`: the author's short
id and the sequence number, put before the extension).
-/
import Itsanas.Version

namespace Itsanas

/-- A string of the source, as its characters. -/
abbrev Str : Type := List Char

instance Str.transOrdList :
    @Std.TransOrd (List Str) (@List.instOrd Str LinearOrder.toOrd) := inferInstance

/-- A logical path. -/
abbrev Path : Type := Str

/-- What can go wrong below the sync engine, without the failures of the disk
and the database themselves. -/
inductive StoreError
  | bareIo
  | missingChunk (chunk : Str)
  | segmentSignature (segment : Str)
  | segmentChainBroken (segment expected found : Str)
  | invalidPath (path : Path) (reason : String)
  | overBudget (path : Path) (account total allowed : ℕ)
  | diskFull (path : Path) (incoming room : ℕ)
  | crypto
  | corrupt (text : String)
  deriving DecidableEq

/-- Length in bytes. -/
def utf8Len (s : Str) : ℕ := (s.map Char.utf8Size).sum

/-- The characters before and after the last `c`, if there is one. -/
def rsplit (c : Char) : Str → Option (Str × Str)
  | [] => none
  | x :: xs =>
    match rsplit c xs with
    | some (a, b) => some (x :: a, b)
    | none => if x = c then some ([], xs) else none

theorem eq_of_rsplit {c : Char} : ∀ {s a b : Str}, rsplit c s = some (a, b) → s = a ++ c :: b
  | x :: xs, a, b, h => by
    unfold rsplit at h
    cases hx : rsplit c xs with
    | some r =>
      rw [hx] at h
      cases h
      rw [eq_of_rsplit hx, List.cons_append]
    | none =>
      rw [hx] at h
      dsimp only at h
      split_ifs at h with hc
      cases h
      rw [hc, List.nil_append]

/-! ### Which strings are paths -/

def maxPathLen : ℕ := 1024

def maxComponentLen : ℕ := 255

/-- Device names Windows resolves whatever the directory or the extension. -/
def windowsReserved : List Str :=
  ["con", "prn", "aux", "nul", "com1", "com2", "com3", "com4", "com5", "com6", "com7", "com8",
    "com9", "lpt1", "lpt2", "lpt3", "lpt4", "lpt5", "lpt6", "lpt7", "lpt8", "lpt9"].map String.toList

/-- Unicode's control characters. -/
def isControl (c : Char) : Bool := c.toNat < 0x20 || (0x7f ≤ c.toNat && c.toNat < 0xa0)

/-- Why a component is refused, if it is. -/
def rejectComponent (component : Str) : Option String :=
  if component.isEmpty then some "empty component"
  else if utf8Len component > maxComponentLen then some "component longer than MAX_COMPONENT_LEN"
  else if component = ['.'] || component = ['.', '.'] then some "relative component"
  else if component.getLast? = some ' ' || component.getLast? = some '.' then
    some "component ends with a space or dot"
  else if windowsReserved.contains ((component.takeWhile (· ≠ '.')).map Char.toLower) then
    some "Windows reserved device name"
  else none

/-- Check that `path` is a safe, canonical, relative logical path. -/
def validate (path : Path) : Except StoreError Unit :=
  let reject : String → Except StoreError Unit := fun reason => .error (.invalidPath path reason)
  if path.isEmpty then reject "empty"
  else if utf8Len path > maxPathLen then reject "longer than MAX_PATH_LEN"
  else if path.contains '\\' then reject "backslash; logical paths use '/' only"
  else if path.head? = some '/' then reject "absolute"
  else if path.getLast? = some '/' then reject "trailing slash"
  else if path.any isControl then reject "control character"
  else if (path.head?.map Char.utf8Size = some 1) && path[1]? = some ':' then
    -- the byte after a one-byte character
    reject "drive-letter prefix"
  else
    match (path.splitOn '/').findSome? rejectComponent with
    | some reason => reject reason
    | none => .ok ()

/-! ### Identifiers in names -/

/-- The first 12 hexadecimal digits of an identifier. -/
def short (id : Id) : Str :=
  (List.range 12).map fun i => Nat.digitChar (id.val / 2 ^ (252 - 4 * i) % 16)

/-! ### Conflicts -/

/-- Whether the left of two concurrent versions keeps the original path. -/
def winsOriginalPath (left right : DeviceId × ℕ) : Bool :=
  if right.1 < left.1 then true
  else if left.1 < right.1 then false
  else right.2 < left.2

/-- Insert `marker` before a path's extension. A leading dot is part of the
name, and so is everything when the first character takes more than one byte:
the source slices the name at byte 1. -/
def withMarker (path : Path) (marker : Str) : Path :=
  let (directory, name) :=
    match rsplit '/' path with
    | some (d, n) => (d ++ ['/'], n)
    | none => ([], path)
  match name with
  | [] => directory ++ name ++ '.' :: marker
  | c :: rest =>
    if c.utf8Size = 1 then
      match rsplit '.' rest with
      | some (stem, ext) => directory ++ (c :: stem) ++ '.' :: marker ++ '.' :: ext
      | none => directory ++ name ++ '.' :: marker
    else directory ++ name ++ '.' :: marker

/-- The path a losing version is materialised at. -/
def siblingPath (path : Path) (device : DeviceId) (sequence : ℕ) : Path :=
  withMarker path ("conflict-".toList ++ short device ++ '-' :: Nat.toDigits 10 sequence)

/-- A marker and its dot are added, and nothing is taken. -/
theorem length_withMarker (path : Path) (marker : Str) :
    (withMarker path marker).length = path.length + marker.length + 1 := by
  have key : ∀ directory name : Str, (match name with
      | [] => directory ++ name ++ '.' :: marker
      | c :: rest =>
        if c.utf8Size = 1 then
          match rsplit '.' rest with
          | some (stem, ext) => directory ++ (c :: stem) ++ '.' :: marker ++ '.' :: ext
          | none => directory ++ name ++ '.' :: marker
        else directory ++ name ++ '.' :: marker).length =
      directory.length + name.length + marker.length + 1 := by
    intro directory name
    split
    · simp; omega
    · rename_i c rest
      split_ifs
      · split
        · rename_i stem ext hr
          rw [eq_of_rsplit hr]
          simp
          omega
        · simp
          omega
      · simp
        omega
  unfold withMarker
  cases hs : rsplit '/' path with
  | none => exact (key [] path).trans (by simp)
  | some r =>
    refine (key (r.1 ++ ['/']) r.2).trans ?_
    rw [eq_of_rsplit hs]
    simp
    omega

theorem siblingPath_ne (path : Path) (device : DeviceId) (sequence : ℕ) :
    siblingPath path device sequence ≠ path := by
  intro h
  have := congrArg List.length h
  rw [siblingPath, length_withMarker] at this
  omega

variable {l r : DeviceId × ℕ}

theorem winsOriginalPath_iff :
    winsOriginalPath l r = true ↔ r.1 < l.1 ∨ r.1 = l.1 ∧ r.2 < l.2 := by
  unfold winsOriginalPath
  rcases lt_trichotomy r.1 l.1 with h | h | h
  · simp [h]
  · simp [h]
  · simp [h, h.not_gt, h.ne']

theorem winsOriginalPath_irrefl (l : DeviceId × ℕ) : winsOriginalPath l l = false := by
  rw [Bool.eq_false_iff, ne_eq, winsOriginalPath_iff]
  simp

theorem winsOriginalPath_trans {a b c : DeviceId × ℕ} (h : winsOriginalPath a b = true)
    (k : winsOriginalPath b c = true) : winsOriginalPath a c = true := by
  rw [winsOriginalPath_iff] at *
  rcases h with h | ⟨h, h'⟩ <;> rcases k with k | ⟨k, k'⟩
  · exact Or.inl (k.trans h)
  · exact Or.inl (k ▸ h)
  · exact Or.inl (h ▸ k)
  · exact Or.inr ⟨k.trans h, k'.trans h'⟩

theorem winsOriginalPath_asymm (h : winsOriginalPath l r = true) :
    winsOriginalPath r l = false := by
  rw [Bool.eq_false_iff]
  intro k
  exact absurd (winsOriginalPath_trans h k) (by simp [winsOriginalPath_irrefl])

/-- Of two different authorships exactly one wins, whichever side asks. -/
theorem winsOriginalPath_total (h : l ≠ r) :
    winsOriginalPath l r = true ∨ winsOriginalPath r l = true := by
  rw [winsOriginalPath_iff, winsOriginalPath_iff]
  rcases lt_trichotomy l.1 r.1 with h1 | h1 | h1
  · exact Or.inr (Or.inl h1)
  · have h2 : l.2 ≠ r.2 := fun he => h (Prod.ext h1 he)
    rcases Nat.lt_or_gt_of_ne h2 with h2 | h2
    · exact Or.inr (Or.inr ⟨h1, h2⟩)
    · exact Or.inl (Or.inr ⟨h1.symm, h2⟩)
  · exact Or.inl (Or.inl h1)

example : siblingPath "my.files/report.pdf".toList (2 ^ 255) 7 =
    "my.files/report.conflict-800000000000-7.pdf".toList := by decide +kernel

end Itsanas
