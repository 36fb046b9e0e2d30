/-
# Files, directories and symbolic links

A file tree is a table from real locations to what is there: a file, a directory, or a symbolic
link with a target that may go up and may be absolute. A path is looked up name by name from a
directory, every link on the way is followed, and the last one only if the call says so; so the
location a call reaches need not be the one its path spells. Where none of the directories a
path names is a link, the path is where it says (`Files.lookup_straight`), and what is there is
found (`Files.lookup_eq`).

The calls are those of a usual system: each says what came of it, the tree it leaves, and the
locations it reached. In a tree whose directories hold together and that has no link at the
locations `D` (`Files.Tame`), a call on a path that leads through `D` only (`Files.Way`) stays
below the root, keeps the tree tame, and changes the contents of files as its name says
(`Files.Left`).
-/
import Itsanas.Lib.Table

namespace Files

variable {ν β : Type}

/-- A real location: names from the top down. -/
abbrev Loc (ν : Type) : Type := List ν

/-- What is at a location. In the target of a link, `none` goes up. -/
inductive Node (ν β : Type)
  | file (content : β) (modified : ℕ)
  | dir
  | link (absolute : Bool) (target : List (Option ν))
  deriving DecidableEq

namespace Node

def isLink : Node ν β → Bool
  | link _ _ => true
  | _ => false

/-- The content of a file. -/
def content? : Node ν β → Option β
  | file content _ => some content
  | _ => none

end Node

/-- Why a call fails. -/
inductive IoError
  | notFound
  | notADirectory
  | isADirectory
  | alreadyExists
  | directoryNotEmpty
  | filesystemLoop
  | nameTooLong
  deriving DecidableEq

variable [LinearOrder ν]

abbrev Tree (ν β : Type) [LinearOrder ν] : Type := Table (Loc ν) (Node ν β)

/-- Whether there is a directory at a location. -/
def isDir (t : Tree ν β) (loc : Loc ν) : Bool :=
  match t[loc]? with
  | some .dir => true
  | _ => false

/-- The content of the file at a location. -/
def content (t : Tree ν β) (loc : Loc ν) : Option β := t[loc]?.bind Node.content?

/-- The names in a directory. -/
def children (t : Tree ν β) (loc : Loc ν) : List ν :=
  t.toList.filterMap fun r => if r.1.dropLast = loc then r.1.getLast? else none

/-! ### Looking a path up -/

/-- Look up a path from a directory, up to the first link that is followed: `jump` goes on from
there. Of the last name nothing need exist. -/
def step (t : Tree ν β) (follow : Bool) (jump : Loc ν → List (Option ν) → Except IoError (Loc ν)) :
    Loc ν → List (Option ν) → Except IoError (Loc ν)
  | cur, [] => .ok cur
  | cur, none :: rest => step t follow jump cur.dropLast rest
  | cur, some name :: rest =>
    match t[cur ++ [name]]? with
    | none => if rest = [] then .ok (cur ++ [name]) else .error .notFound
    | some .dir => step t follow jump (cur ++ [name]) rest
    | some (.file _ _) => if rest = [] then .ok (cur ++ [name]) else .error .notADirectory
    | some (.link absolute target) =>
      if rest = [] ∧ follow = false then .ok (cur ++ [name])
      else jump (if absolute then [] else cur) (target ++ rest)

/-- Look up a path, following so many links at most. -/
def resolve (t : Tree ν β) (follow : Bool) : ℕ → Loc ν → List (Option ν) → Except IoError (Loc ν)
  | 0 => fun _ _ => .error .filesystemLoop
  | links + 1 => step t follow (resolve t follow links)

/-- How many links one lookup follows. -/
def maxLinks : ℕ := 40

/-- The location of the path `names` below the directory `root`. -/
def lookup (t : Tree ν β) (follow : Bool) (root : Loc ν) (names : List ν) : Except IoError (Loc ν) :=
  resolve t follow (maxLinks + 1) root (names.map some)

/-! ### Calls -/

/-- What came of a call, the tree it leaves, and the locations it reached. -/
structure Reply (ν β α : Type) [LinearOrder ν] where
  value : Except IoError α
  tree : Tree ν β
  reached : List (Loc ν)

/-- A call that did nothing. -/
def refuse {α : Type} (t : Tree ν β) (error : IoError) : Reply ν β α := ⟨.error error, t, []⟩

/-- Look a path up and go on with what is there. -/
def onNode {α : Type} (t : Tree ν β) (follow : Bool) (root : Loc ν) (names : List ν)
    (f : Loc ν → Option (Node ν β) → Reply ν β α) : Reply ν β α :=
  match lookup t follow root names with
  | .error error => refuse t error
  | .ok loc => f loc t[loc]?

/-- What is at a path, a link if it is one. -/
def symlinkMetadata (root : Loc ν) (names : List ν) (t : Tree ν β) : Reply ν β (Node ν β) :=
  onNode t false root names fun loc node =>
    match node with
    | none => refuse t .notFound
    | some node => ⟨.ok node, t, [loc]⟩

/-- What is at a path, through links. -/
def metadata (root : Loc ν) (names : List ν) (t : Tree ν β) : Reply ν β (Node ν β) :=
  onNode t true root names fun loc node =>
    match node with
    | none => refuse t .notFound
    | some node => ⟨.ok node, t, [loc]⟩

/-- List a directory. -/
def readDir (root : Loc ν) (names : List ν) (t : Tree ν β) : Reply ν β (List ν) :=
  onNode t true root names fun loc node =>
    match node with
    | some .dir => ⟨.ok (children t loc), t, [loc]⟩
    | some _ => refuse t .notADirectory
    | none => refuse t .notFound

/-- Open a file and read it. -/
def read (root : Loc ν) (names : List ν) (t : Tree ν β) : Reply ν β β :=
  onNode t true root names fun loc node =>
    match node with
    | some (.file content _) => ⟨.ok content, t, [loc]⟩
    | some _ => refuse t .isADirectory
    | none => refuse t .notFound

/-- Write a file: made if there is none, else overwritten. -/
def write (now : ℕ) (root : Loc ν) (names : List ν) (content : β) (t : Tree ν β) : Reply ν β Unit :=
  onNode t true root names fun loc node =>
    match node with
    | some (.file _ _) => ⟨.ok (), t.insert loc (.file content now), [loc]⟩
    | some _ => refuse t .isADirectory
    | none =>
      if isDir t loc.dropLast then ⟨.ok (), t.insert loc (.file content now), [loc]⟩
      else refuse t .notFound

/-- Make a directory. -/
def createDir (root : Loc ν) (names : List ν) (t : Tree ν β) : Reply ν β Unit :=
  onNode t false root names fun loc node =>
    match node with
    | some _ => refuse t .alreadyExists
    | none =>
      if isDir t loc.dropLast then ⟨.ok (), t.insert loc .dir, [loc]⟩
      else refuse t .notFound

/-- Make one directory unless there is one, through links. -/
def ensureDir (root : Loc ν) (names : List ν) (t : Tree ν β) : Reply ν β Unit :=
  let look := metadata root names t
  match look.value with
  | .ok .dir => ⟨.ok (), t, look.reached⟩
  | _ =>
    let made := createDir root names t
    { made with reached := look.reached ++ made.reached }

/-- Make the directories `front`, `front` and the first of `names`, and so on. -/
def createDirsFrom (root : Loc ν) : List ν → List ν → Tree ν β → Reply ν β Unit
  | _, [], t => ⟨.ok (), t, []⟩
  | front, name :: names, t =>
    let made := ensureDir root (front ++ [name]) t
    match made.value with
    | .error error => ⟨.error error, made.tree, made.reached⟩
    | .ok () =>
      let rest := createDirsFrom root (front ++ [name]) names made.tree
      { rest with reached := made.reached ++ rest.reached }

/-- Make a directory and those above it. -/
def createDirAll (root : Loc ν) (names : List ν) (t : Tree ν β) : Reply ν β Unit :=
  createDirsFrom root [] names t

/-- Move a file or a link, over a file or a link if there is one. -/
def rename (root : Loc ν) (source target : List ν) (t : Tree ν β) : Reply ν β Unit :=
  onNode t false root source fun source node =>
    match node with
    | none => refuse t .notFound
    | some .dir => refuse t .isADirectory
    | some node =>
      onNode t false root target fun target there =>
        match there with
        | some .dir => refuse t .isADirectory
        | some _ => ⟨.ok (), (t.erase source).insert target node, [source, target]⟩
        | none =>
          if isDir t target.dropLast then
            ⟨.ok (), (t.erase source).insert target node, [source, target]⟩
          else refuse t .notFound

/-- Remove a file or a link. -/
def removeFile (root : Loc ν) (names : List ν) (t : Tree ν β) : Reply ν β Unit :=
  onNode t false root names fun loc node =>
    match node with
    | none => refuse t .notFound
    | some .dir => refuse t .isADirectory
    | some _ => ⟨.ok (), t.erase loc, [loc]⟩

/-- Whether nothing is below a location. -/
def isBare (t : Tree ν β) (loc : Loc ν) : Bool := t.toList.all fun r => ¬(loc <+: r.1 ∧ r.1 ≠ loc)

/-- Remove an empty directory. -/
def removeDir (root : Loc ν) (names : List ν) (t : Tree ν β) : Reply ν β Unit :=
  onNode t false root names fun loc node =>
    match node with
    | none => refuse t .notFound
    | some .dir => if isBare t loc then ⟨.ok (), t.erase loc, [loc]⟩ else refuse t .directoryNotEmpty
    | some _ => refuse t .notADirectory

/-- Copy a file. -/
def copy (now : ℕ) (root : Loc ν) (source target : List ν) (t : Tree ν β) : Reply ν β Unit :=
  match read root source t with
  | ⟨.error error, t, reached⟩ => ⟨.error error, t, reached⟩
  | ⟨.ok content, t, reached⟩ =>
    let written := write now root target content t
    { written with reached := reached ++ written.reached }

/-! ### Straight paths -/

section
variable {root : Loc ν} {t : Tree ν β} {D : Loc ν → Prop} {loc : Loc ν}

theorem isDir_iff : isDir t loc = true ↔ t[loc]? = some .dir := by
  unfold isDir
  split
  · simp_all
  · rename_i hnot
    simpa using hnot

variable {node : Node ν β}

theorem mem_rows : (loc, node) ∈ t.toList ↔ t[loc]? = some node := Table.mem_toList

/-- A tree below `root`: whatever is there is in a directory; and no link is in `D`. -/
structure Tame (D : Loc ν → Prop) (root : Loc ν) (t : Tree ν β) : Prop where
  rooted : ∀ loc name node, t[loc ++ [name]]? = some node → root <+: loc → isDir t loc = true
  plain : ∀ loc node, D loc → t[loc]? = some node → node.isLink = false

/-- The directories a path names are in `D`. -/
def Way (D : Loc ν → Prop) (root : Loc ν) (names : List ν) : Prop :=
  ∀ front back, names = front ++ back → front ≠ [] → back ≠ [] → D (root ++ front)

omit [LinearOrder ν] in
/-- One name names no directory. -/
theorem way_singleton (name : ν) : Way D root [name] := by
  intro front back hnames hfront hback
  have hlength := congrArg List.length hnames
  have := List.length_pos_of_ne_nil hfront
  have := List.length_pos_of_ne_nil hback
  simp only [List.length_append, List.length_singleton] at hlength
  omega

/-- Above what is there are directories. -/
theorem Tame.isDir_above (h : Tame D root t) : ∀ {back : List ν} {front : Loc ν} {node : Node ν β},
    root <+: front → back ≠ [] → t[front ++ back]? = some node → isDir t front = true
  | [], _, _, _, hne, _ => absurd rfl hne
  | [name], front, node, hin, _, hnode => h.rooted front name node hnode hin
  | name :: name' :: back, front, node, hin, _, hnode => by
    have hdir : isDir t (front ++ [name]) = true := by
      refine h.isDir_above (hin.trans (List.prefix_append _ [name])) (List.cons_ne_nil name' back)
        (?_ : _ = some node)
      simpa using hnode
    exact h.rooted front name .dir (isDir_iff.mp hdir) hin

variable {follow : Bool}

/-- **A straight path is where it says**, if it is anywhere. -/
theorem step_straight {jump : Loc ν → List (Option ν) → Except IoError (Loc ν)} :
    ∀ {names : List ν} {cur loc : Loc ν},
      (∀ front back node, names = front ++ back → front ≠ [] → back ≠ [] →
        t[cur ++ front]? = some node →
        node.isLink = false) →
      (follow = false ∨ ∀ node, t[cur ++ names]? = some node → node.isLink = false) →
      step t follow jump cur (names.map some) = .ok loc → loc = cur ++ names
  | [], cur, loc, _, _, h => by
    cases h
    simp
  | name :: names, cur, loc, hplain, hlast, h => by
    rw [List.map_cons, step] at h
    have hsplit : cur ++ name :: names = (cur ++ [name]) ++ names := by simp
    cases hnode : t[cur ++ [name]]? with
    | none =>
      rw [hnode] at h
      dsimp only at h
      split_ifs at h with hend
      cases h
      rw [List.map_eq_nil_iff.mp hend]
    | some node =>
      rw [hnode] at h
      cases node with
      | file content modified =>
        dsimp only at h
        split_ifs at h with hend
        cases h
        rw [List.map_eq_nil_iff.mp hend]
      | dir =>
        rw [hsplit]
        refine step_straight (fun front back node hfront hne hback hthere => ?_)
          (hlast.imp_right fun h => ?_) h
        · refine hplain (name :: front) back node (by rw [hfront, List.cons_append]) (by simp) hback ?_
          rw [← hthere]
          simp
        · rwa [hsplit] at h
      | link absolute target =>
        dsimp only at h
        by_cases hend : names.map some = [] ∧ follow = false
        · rw [if_pos hend] at h
          cases h
          rw [List.map_eq_nil_iff.mp hend.1]
        · -- a link is no directory of the way, and at the end it is not followed
          exfalso
          cases names with
          | nil =>
            rcases hlast with hfollow | hlast
            · exact hend ⟨rfl, hfollow⟩
            · cases hlast _ hnode
          | cons next names => cases hplain [name] (next :: names) _ rfl (by simp) (by simp) hnode

variable {names : List ν}

theorem lookup_straight (h : Tame D root t) (hway : Way D root names)
    (hlast : follow = false ∨ ∀ node, t[root ++ names]? = some node → node.isLink = false)
    (hlookup : lookup t follow root names = .ok loc) : loc = root ++ names :=
  step_straight
    (fun front back node hnames hne hback => h.plain _ node (hway front back hnames hne hback))
    hlast hlookup

/-- What is there is found. -/
theorem step_found {jump : Loc ν → List (Option ν) → Except IoError (Loc ν)} :
    ∀ {names : List ν} {cur : Loc ν} {node : Node ν β},
      (∀ front back, names = front ++ back → front ≠ [] → back ≠ [] → isDir t (cur ++ front) = true) →
      (follow = false ∨ node.isLink = false) → t[cur ++ names]? = some node →
      step t follow jump cur (names.map some) = .ok (cur ++ names)
  | [], cur, node, _, _, _ => by simp [step]
  | name :: names, cur, node, hdirs, hlast, hnode => by
    rw [List.map_cons, step]
    have hsplit : cur ++ name :: names = (cur ++ [name]) ++ names := by simp
    cases names with
    | nil =>
      rw [hnode]
      cases node with
      | file content modified => simp
      | dir => simp [step]
      | link absolute target =>
        rcases hlast with hfollow | hlast
        · simp [hfollow]
        · cases hlast
    | cons next names =>
      rw [isDir_iff.mp (hdirs [name] (next :: names) rfl (by simp) (by simp))]
      dsimp only
      rw [hsplit] at hnode ⊢
      refine step_found (fun front back hfront hne hback => ?_) hlast hnode
      have := hdirs (name :: front) back (by rw [hfront, List.cons_append]) (by simp) hback
      simpa using this

theorem lookup_eq (h : Tame D root t)
    (hnode : t[root ++ names]? = some node) (hlast : follow = false ∨ node.isLink = false) :
    lookup t follow root names = .ok (root ++ names) := by
  refine step_found (fun front back hnames _ hback => ?_) hlast hnode
  refine h.isDir_above (List.prefix_append _ _) hback (?_ : _ = some node)
  rw [← hnode, hnames, List.append_assoc]

variable {α : Type}

/-- A call on a straight path goes on at the location it says, or there is nothing and it is
refused. -/
theorem onNode_straight (h : Tame D root t) (hway : Way D root names)
    (hlast : follow = false ∨ ∀ node, t[root ++ names]? = some node → node.isLink = false)
    (f : Loc ν → Option (Node ν β) → Reply ν β α) :
    onNode t follow root names f = f (root ++ names) t[root ++ names]? ∨
      t[root ++ names]? = none ∧ ∃ error, onNode t follow root names f = refuse t error := by
  unfold onNode
  cases hlookup : lookup t follow root names with
  | ok loc =>
    rw [lookup_straight h hway hlast hlookup]
    exact .inl rfl
  | error error =>
    refine .inr ⟨?_, error, rfl⟩
    cases hnode : t[root ++ names]? with
    | none => rfl
    | some node =>
      rw [lookup_eq h hnode (hlast.imp_right fun h => h node hnode)] at hlookup
      cases hlookup

/-! ### Contents -/

variable {c : β}

theorem content_eq_some :
    content t loc = some c ↔ ∃ modified, t[loc]? = some (.file c modified) := by
  unfold content
  cases t[loc]? with
  | none => simp
  | some node => cases node <;> simp [Node.content?]

/-- Contents with another one at a location. -/
def put (f : Loc ν → Option β) (loc : Loc ν) (c : Option β) :
    Loc ν → Option β := Function.update f loc c

@[simp] theorem put_self (f : Loc ν → Option β) (loc : Loc ν) (c : Option β) : put f loc c loc = c :=
  Function.update_self ..

theorem put_of_ne {loc loc' : Loc ν} (h : loc' ≠ loc) (f : Loc ν → Option β) (c : Option β) :
    put f loc c loc' = f loc' :=
  Function.update_of_ne h ..

theorem put_eq_self {f : Loc ν → Option β} {c : Option β} (h : f loc = c) : put f loc c = f :=
  Function.update_eq_self_iff.mpr h.symm

theorem content_insert (loc : Loc ν) (node : Node ν β) :
    content (t.insert loc node) = put (content t) loc node.content? := by
  funext loc'
  unfold content
  rw [Table.getElem?_insert']
  by_cases heq : loc = loc'
  · subst heq
    simp
  · rw [if_neg heq, put_of_ne (Ne.symm heq)]

theorem content_erase (loc : Loc ν) : content (t.erase loc) = put (content t) loc none := by
  funext loc'
  unfold content
  rw [Table.getElem?_erase']
  by_cases heq : loc = loc'
  · subst heq
    simp
  · rw [if_neg heq, put_of_ne (Ne.symm heq)]

theorem content_of_isDir (hdir : isDir t loc = true) : content t loc = none := by
  rw [content, isDir_iff.mp hdir]
  rfl

/-! ### What keeps a tree tame -/

variable {name : ν}

/-- Putting a file or a directory in a directory, not over a directory with a file. -/
theorem Tame.insert (h : Tame D root t)
    (hdir : isDir t loc = true) (hkeep : isDir t (loc ++ [name]) = true → node = .dir)
    (hplain : node.isLink = false) : Tame D root (t.insert (loc ++ [name]) node) where
  rooted loc' name' node' hnode hin := by
    have habove : isDir t loc' = true := by
      rw [Table.getElem?_insert'] at hnode
      split_ifs at hnode with heq
      · rw [← (List.append_inj' heq rfl).1]
        exact hdir
      · exact h.rooted loc' name' node' hnode hin
    rw [isDir_iff, Table.getElem?_insert']
    split_ifs with heq
    · rw [hkeep (by rw [heq]; exact habove)]
    · exact isDir_iff.mp habove
  plain loc' node' hD hnode := by
    rw [Table.getElem?_insert'] at hnode
    split_ifs at hnode with heq
    · cases hnode
      exact hplain
    · exact h.plain loc' node' hD hnode

/-- Taking out what has nothing below it. -/
theorem Tame.erase (h : Tame D root t) (hbare : ∀ name, t[loc ++ [name]]? = none) :
    Tame D root (t.erase loc) where
  rooted loc' name' node' hnode hin := by
    rw [Table.getElem?_erase'] at hnode
    split_ifs at hnode
    rw [isDir_iff, Table.getElem?_erase', if_neg]
    · exact isDir_iff.mp (h.rooted loc' name' node' hnode hin)
    · rintro rfl
      rw [hbare name'] at hnode
      cases hnode
  plain loc' node' hD hnode := by
    rw [Table.getElem?_erase'] at hnode
    split_ifs at hnode
    exact h.plain loc' node' hD hnode

/-- Nothing is below what is no directory. -/
theorem Tame.bare (h : Tame D root t) (hin : root <+: loc) (hfile : t[loc]? ≠ some .dir) (name : ν) :
    t[loc ++ [name]]? = none := by
  cases hnode : t[loc ++ [name]]? with
  | none => rfl
  | some node => exact absurd (isDir_iff.mp (h.rooted loc name node hnode hin)) hfile

theorem bare_of_isBare (hbare : isBare t loc = true) (name : ν) : t[loc ++ [name]]? = none := by
  cases hnode : t[loc ++ [name]]? with
  | none => rfl
  | some node =>
    have hrow := List.all_eq_true.mp hbare (loc ++ [name], node) (Table.mem_toList.mpr hnode)
    simp at hrow

theorem mem_children :
    name ∈ children t loc ↔ ∃ node, t[loc ++ [name]]? = some node := by
  unfold children
  rw [List.mem_filterMap]
  constructor
  · rintro ⟨⟨at', node⟩, hrow, hname⟩
    dsimp only at hname
    split_ifs at hname with hloc
    refine ⟨node, ?_⟩
    rw [← hloc, List.dropLast_append_getLast? _ hname]
    exact Table.mem_toList.mp hrow
  · rintro ⟨node, hnode⟩
    exact ⟨(loc ++ [name], node), Table.mem_toList.mpr hnode, by simp⟩

/-! ### Calls that only look -/

/-- A call on what is there goes on there. -/
theorem onNode_found (h : Tame D root t)
    (hnode : t[root ++ names]? = some node) (hlast : follow = false ∨ node.isLink = false)
    (f : Loc ν → Option (Node ν β) → Reply ν β α) :
    onNode t follow root names f = f (root ++ names) (some node) := by
  rw [onNode, lookup_eq h hnode hlast]
  dsimp only
  rw [hnode]

theorem symlinkMetadata_found (h : Tame D root t) (hnode : t[root ++ names]? = some node) :
    symlinkMetadata root names t = ⟨.ok node, t, [root ++ names]⟩ :=
  onNode_found h hnode (.inl rfl) _

theorem metadata_found (h : Tame D root t) (names : List ν)
    (hnode : t[root ++ names]? = some node) (hlast : node.isLink = false) :
    metadata root names t = ⟨.ok node, t, [root ++ names]⟩ :=
  onNode_found h hnode (.inr hlast) _

theorem readDir_found (h : Tame D root t) (hdir : isDir t (root ++ names) = true) :
    readDir root names t = ⟨.ok (children t (root ++ names)), t, [root ++ names]⟩ :=
  onNode_found h (isDir_iff.mp hdir) (.inr rfl) _

theorem read_found (h : Tame D root t) (hc : content t (root ++ names) = some c) :
    read root names t = ⟨.ok c, t, [root ++ names]⟩ := by
  obtain ⟨modified, hnode⟩ := content_eq_some.mp hc
  exact onNode_found h hnode (.inr rfl) _

theorem metadata_root (root : Loc ν) (t : Tree ν β) :
    (∃ node, t[root]? = some node ∧ metadata root [] t = ⟨.ok node, t, [root]⟩) ∨
      metadata root [] t = refuse t .notFound := by
  have hlookup : lookup t true root [] = .ok root := rfl
  unfold metadata onNode
  rw [hlookup]
  dsimp only
  cases hnode : t[root]? with
  | some node => exact .inl ⟨node, rfl, rfl⟩
  | none => exact .inr rfl

/-- What is at a path is found, and nothing else. -/
theorem symlinkMetadata_cases (h : Tame D root t) (hway : Way D root names) :
    (∃ node, t[root ++ names]? = some node ∧
      symlinkMetadata root names t = ⟨.ok node, t, [root ++ names]⟩) ∨
      t[root ++ names]? = none ∧ ∃ error, symlinkMetadata root names t = refuse t error := by
  cases hnode : t[root ++ names]? with
  | some node => exact .inl ⟨node, rfl, symlinkMetadata_found h hnode⟩
  | none =>
    refine .inr ⟨rfl, ?_⟩
    unfold symlinkMetadata
    rcases onNode_straight h hway (.inl rfl) (fun loc node => match node with
      | none => refuse t .notFound
      | some node => (⟨.ok node, t, [loc]⟩ : Reply ν β (Node ν β))) with heq | ⟨_, hrefused⟩
    · rw [heq, hnode]
      exact ⟨_, rfl⟩
    · exact hrefused

/-! ### Calls that change the tree -/

/-- What came of a call: it reached locations below the root only, the tree is tame, and the
contents are what `f` says. -/
structure Left (D : Loc ν → Prop) (root : Loc ν) {α : Type} (reply : Reply ν β α)
    (f : Loc ν → Option β) :
    Prop where
  inside : ∀ loc ∈ reply.reached, root <+: loc
  tame : Tame D root reply.tree
  contents : content reply.tree = f

theorem Tame.refused (h : Tame D root t) (error : IoError) :
    Left D root (refuse t error : Reply ν β α) (content t) :=
  ⟨nofun, h, rfl⟩

omit [LinearOrder ν] in
theorem inside_singleton : ∀ loc ∈ [root ++ names], root <+: loc := by
  intro loc hloc
  rw [List.mem_singleton.mp hloc]
  exact List.prefix_append _ _

/-- A node put below the root, in a directory, not over one. -/
theorem Tame.put (h : Tame D root t) (hne : names ≠ [])
    (hplain : node.isLink = false) (hdir : isDir t (root ++ names).dropLast = true)
    (hover : t[root ++ names]? ≠ some .dir) : Tame D root (t.insert (root ++ names) node) := by
  have hsplit : root ++ names = (root ++ names).dropLast ++ [names.getLast hne] := by
    rw [← List.getLast_append_of_ne_nil (by simp [hne]) hne, List.dropLast_append_getLast]
  rw [hsplit]
  refine h.insert hdir (fun hkeep => ?_) hplain
  rw [← hsplit] at hkeep
  exact absurd (isDir_iff.mp hkeep) hover

/-- What is in the tree below the root is in a directory. -/
theorem Tame.isDir_dropLast (h : Tame D root t) (hne : names ≠ [])
    (hnode : t[root ++ names]? = some node) : isDir t (root ++ names).dropLast = true := by
  have hsplit : root ++ names = (root ++ names).dropLast ++ [names.getLast hne] := by
    rw [← List.getLast_append_of_ne_nil (by simp [hne]) hne, List.dropLast_append_getLast]
  have hin : root <+: (root ++ names).dropLast := by
    rw [List.dropLast_append_of_ne_nil hne]
    exact List.prefix_append _ _
  rw [hsplit] at hnode
  exact h.rooted _ _ _ hnode hin

theorem write_left (h : Tame D root t) (hne : names ≠ []) (hway : Way D root names)
    (hlast : D (root ++ names)) (now : ℕ) (c : β) :
    ((write now root names c t).value = .ok () ∧
      Left D root (write now root names c t) (put (content t) (root ++ names) (some c))) ∨
    (∃ error, (write now root names c t).value = .error error) ∧
      Left D root (write now root names c t) (content t) := by
  have hput : isDir t (root ++ names).dropLast = true → t[root ++ names]? ≠ some .dir →
      Left D root (⟨.ok (), t.insert (root ++ names) (.file c now), [root ++ names]⟩ : Reply ν β Unit)
        (put (content t) (root ++ names) (some c)) := fun hdir hover =>
    ⟨inside_singleton, h.put hne rfl hdir hover, content_insert _ _⟩
  unfold write
  rcases onNode_straight h hway (.inr fun node => h.plain _ node hlast)
      (fun loc node => match node with
    | some (.file _ _) => (⟨.ok (), t.insert loc (.file c now), [loc]⟩ : Reply ν β Unit)
    | some _ => refuse t .isADirectory
    | none =>
      if isDir t loc.dropLast then ⟨.ok (), t.insert loc (.file c now), [loc]⟩
      else refuse t .notFound) with heq | ⟨_, error, heq⟩
  · rw [heq]
    cases hnode : t[root ++ names]? with
    | none =>
      by_cases hdir : isDir t (root ++ names).dropLast = true
      · simp only [hdir, if_true]
        exact .inl ⟨trivial, hput hdir (by rw [hnode]; simp)⟩
      · simp only [hdir]
        exact .inr ⟨⟨_, rfl⟩, h.refused _⟩
    | some node =>
      cases node with
      | file old modified =>
        exact .inl ⟨rfl, hput (h.isDir_dropLast hne hnode) (by rw [hnode]; simp)⟩
      | dir => exact .inr ⟨⟨_, rfl⟩, h.refused _⟩
      | link absolute target => exact .inr ⟨⟨_, rfl⟩, h.refused _⟩
  · rw [heq]
    exact .inr ⟨⟨_, rfl⟩, h.refused _⟩

/-- A file can be written in the root, unless something else is there. -/
theorem write_in_root (hroot : isDir t root = true) (hdir : t[root ++ [name]]? ≠ some .dir)
    (hplain : ∀ node, t[root ++ [name]]? = some node → node.isLink = false) (now : ℕ) (c : β) :
    (write now root [name] c t).value = .ok () := by
  have hlookup : lookup t true root [name] = .ok (root ++ [name]) := by
    unfold lookup resolve
    rw [List.map_singleton, step]
    cases hnode : t[root ++ [name]]? with
    | none => simp
    | some node =>
      cases node with
      | dir => exact absurd hnode hdir
      | file content modified => simp
      | link absolute target => exact absurd (hplain _ hnode) (by simp [Node.isLink])
  unfold write onNode
  rw [hlookup]
  dsimp only
  cases hnode : t[root ++ [name]]? with
  | none => simp [hroot]
  | some node =>
    cases node with
    | dir => exact absurd hnode hdir
    | file content modified => rfl
    | link absolute target => exact absurd (hplain _ hnode) (by simp [Node.isLink])

theorem createDir_left (h : Tame D root t) (hne : names ≠ []) (hway : Way D root names) :
    Left D root (createDir root names t) (content t) := by
  unfold createDir
  rcases onNode_straight h hway (.inl rfl) (fun loc node => match node with
    | some _ => refuse t .alreadyExists
    | none =>
      if isDir t loc.dropLast then (⟨.ok (), t.insert loc .dir, [loc]⟩ : Reply ν β Unit)
      else refuse t .notFound) with heq | ⟨_, error, heq⟩
  · rw [heq]
    cases hnode : t[root ++ names]? with
    | some node => exact h.refused _
    | none =>
      by_cases hdir : isDir t (root ++ names).dropLast = true
      · simp only [hdir, if_true]
        refine ⟨inside_singleton, h.put hne rfl hdir (by rw [hnode]; simp), ?_⟩
        rw [content_insert]
        apply put_eq_self
        rw [content, hnode]
        rfl
      · simp only [hdir]
        exact h.refused _
  · rw [heq]
    exact h.refused _

theorem metadata_left (h : Tame D root t) (hway : Way D root names) (hlast : D (root ++ names)) :
    Left D root (metadata root names t) (content t) := by
  unfold metadata
  rcases onNode_straight h hway (.inr fun node => h.plain _ node hlast)
      (fun loc node => match node with
    | none => refuse t .notFound
    | some node => (⟨.ok node, t, [loc]⟩ : Reply ν β (Node ν β))) with heq | ⟨_, error, heq⟩
  · rw [heq]
    cases t[root ++ names]? with
    | none => exact h.refused _
    | some node => exact ⟨inside_singleton, h, rfl⟩
  · rw [heq]
    exact h.refused _

/-- A file is read, or there is none. -/
theorem read_cases (h : Tame D root t) (hway : Way D root names)
    (hfirm : ∀ node, t[root ++ names]? = some node → node.isLink = false) :
    (∃ c, content t (root ++ names) = some c ∧ read root names t = ⟨.ok c, t, [root ++ names]⟩) ∨
      content t (root ++ names) = none ∧ ∃ error, read root names t = refuse t error := by
  unfold read
  rcases onNode_straight h hway (.inr hfirm) (fun loc node => match node with
    | some (.file content _) => (⟨.ok content, t, [loc]⟩ : Reply ν β β)
    | some _ => refuse t .isADirectory
    | none => refuse t .notFound) with heq | ⟨hnone, hrefused⟩
  · rw [heq, content]
    cases hnode : t[root ++ names]? with
    | none => exact .inr ⟨rfl, _, rfl⟩
    | some node =>
      cases node with
      | file c modified => exact .inl ⟨c, rfl, rfl⟩
      | dir => exact .inr ⟨rfl, _, rfl⟩
      | link absolute target => exact .inr ⟨rfl, _, rfl⟩
  · rw [content, hnone]
    exact .inr ⟨rfl, hrefused⟩

theorem ensureDir_left (h : Tame D root t) (hne : names ≠ []) (hway : Way D root names)
    (hlast : D (root ++ names)) : Left D root (ensureDir root names t) (content t) := by
  have hlook := metadata_left h hway hlast
  have hmade := createDir_left h hne hway
  unfold ensureDir
  dsimp only
  split
  · exact ⟨hlook.inside, h, rfl⟩
  · exact ⟨fun loc hloc => (List.mem_append.mp hloc).elim (hlook.inside loc) (hmade.inside loc),
      hmade.tame,
      hmade.contents⟩

/-- Making directories changes the content of no file. -/
theorem createDirsFrom_left : ∀ {names front : List ν} {t : Tree ν β}, Tame D root t →
    (∀ some' back, front ++ names = some' ++ back → some' ≠ [] → D (root ++ some')) →
    Left D root (createDirsFrom root front names t) (content t)
  | [], _, _, h, _ => ⟨nofun, h, rfl⟩
  | name :: names, front, t, h, hD => by
    have hsplit : front ++ name :: names = (front ++ [name]) ++ names := by simp
    have hway : Way D root (front ++ [name]) := by
      intro some' back hnames hne _
      refine hD some' (back ++ names) ?_ hne
      rw [hsplit, hnames, List.append_assoc]
    have hmade := ensureDir_left h (by simp) hway (hD _ names hsplit (by simp))
    unfold createDirsFrom
    dsimp only
    split
    · exact ⟨hmade.inside, hmade.tame, hmade.contents⟩
    · have hrest : Left D root (createDirsFrom root (front ++ [name]) names _) _ :=
        createDirsFrom_left hmade.tame
          (fun some' back hnames => hD some' back (by rw [hsplit, hnames]))
      refine ⟨fun loc hloc => ?_, hrest.tame, hrest.contents.trans hmade.contents⟩
      exact (List.mem_append.mp hloc).elim (hmade.inside loc) (hrest.inside loc)

theorem createDirAll_left (h : Tame D root t)
    (hD : ∀ front back, names = front ++ back → front ≠ [] → D (root ++ front)) :
    Left D root (createDirAll root names t) (content t) :=
  createDirsFrom_left h fun front back hnames hne => hD front back hnames hne

theorem removeFile_left (h : Tame D root t) (hway : Way D root names) :
    ((removeFile root names t).value = .ok () ∧
      Left D root (removeFile root names t) (put (content t) (root ++ names) none)) ∨
    (∃ error, (removeFile root names t).value = .error error) ∧
      content t (root ++ names) = none ∧ Left D root (removeFile root names t) (content t) := by
  have herase : t[root ++ names]? ≠ some .dir →
      Left D root (⟨.ok (), t.erase (root ++ names), [root ++ names]⟩ : Reply ν β Unit)
        (put (content t) (root ++ names) none) := fun hfile =>
    ⟨inside_singleton, h.erase (h.bare (List.prefix_append _ _) hfile), content_erase _⟩
  unfold removeFile
  rcases onNode_straight h hway (.inl rfl) (fun loc node => match node with
    | none => refuse t .notFound
    | some .dir => refuse t .isADirectory
    | some _ => (⟨.ok (), t.erase loc, [loc]⟩ : Reply ν β Unit)) with heq | ⟨hnode, error, heq⟩
  · rw [heq]
    cases hnode : t[root ++ names]? with
    | none => exact .inr ⟨⟨_, rfl⟩, by rw [content, hnode]; rfl, h.refused _⟩
    | some node =>
      cases node with
      | dir => exact .inr ⟨⟨_, rfl⟩, by rw [content, hnode]; rfl, h.refused _⟩
      | file c modified => exact .inl ⟨rfl, herase (by rw [hnode]; simp)⟩
      | link absolute target => exact .inl ⟨rfl, herase (by rw [hnode]; simp)⟩
  · rw [heq]
    exact .inr ⟨⟨_, rfl⟩, by rw [content, hnode]; rfl, h.refused _⟩

theorem removeDir_left (h : Tame D root t) (hway : Way D root names) :
    Left D root (removeDir root names t) (content t) := by
  unfold removeDir
  rcases onNode_straight h hway (.inl rfl) (fun loc node => match node with
    | none => refuse t .notFound
    | some .dir =>
      if isBare t loc then (⟨.ok (), t.erase loc, [loc]⟩ : Reply ν β Unit) else refuse t
        .directoryNotEmpty
    | some _ => refuse t .notADirectory) with heq | ⟨_, error, heq⟩
  · rw [heq]
    cases hnode : t[root ++ names]? with
    | none => exact h.refused _
    | some node =>
      cases node with
      | dir =>
        by_cases hbare : isBare t (root ++ names) = true
        · simp only [hbare, if_true]
          refine ⟨inside_singleton, h.erase (bare_of_isBare hbare), ?_⟩
          rw [content_erase]
          apply put_eq_self
          rw [content, hnode]
          rfl
        · simp only [hbare]
          exact h.refused _
      | file c modified => exact h.refused _
      | link absolute target => exact h.refused _
  · rw [heq]
    exact h.refused _

/-- A file moves, with its content, over what is there. -/
theorem rename_left (h : Tame D root t) {source target : List ν}
    (hsource : content t (root ++ source) = some c) (hne : target ≠ []) (hway : Way D root target) :
    ((rename root source target t).value = .ok () ∧
      Left D root (rename root source target t)
        (put (put (content t) (root ++ source) none) (root ++ target) (some c))) ∨
    (∃ error, (rename root source target t).value = .error error) ∧
      Left D root (rename root source target t) (content t) := by
  obtain ⟨modified, hnode⟩ := content_eq_some.mp hsource
  have hmoved : isDir t (root ++ target).dropLast = true → t[root ++ target]? ≠ some .dir →
      Left D root (⟨.ok (), (t.erase (root ++ source)).insert (root ++ target) (.file c modified),
          [root ++ source, root ++ target]⟩ : Reply ν β Unit)
        (put (put (content t) (root ++ source) none) (root ++ target) (some c)) := by
    intro hdir hover
    have herased : Tame D root (t.erase (root ++ source)) :=
      h.erase (h.bare (List.prefix_append _ _) (by rw [hnode]; simp))
    refine ⟨?_, herased.put hne rfl ?_ ?_, ?_⟩
    · intro loc hloc
      rcases List.mem_cons.mp hloc with rfl | hloc
      · exact List.prefix_append _ _
      · exact inside_singleton loc hloc
    · rw [isDir_iff, Table.getElem?_erase', if_neg]
      · exact isDir_iff.mp hdir
      · intro heq
        rw [← heq, isDir_iff, hnode] at hdir
        cases hdir
    · rw [Table.getElem?_erase']
      split_ifs
      · nofun
      · exact hover
    · rw [content_insert, content_erase]
      rfl
  unfold rename
  rw [onNode_found h hnode (.inl rfl)]
  dsimp only
  rcases onNode_straight h hway (.inl rfl) (fun target there => match there with
    | some .dir => refuse t .isADirectory
    | some _ => (⟨.ok (), (t.erase (root ++ source)).insert target (.file c modified),
        [root ++ source, target]⟩ : Reply ν β Unit)
    | none =>
      if isDir t target.dropLast then
        ⟨.ok (), (t.erase (root ++ source)).insert target (.file c modified), [root ++ source, target]⟩
      else refuse t .notFound) with heq | ⟨_, error, heq⟩
  · rw [heq]
    cases hthere : t[root ++ target]? with
    | none =>
      by_cases hdir : isDir t (root ++ target).dropLast = true
      · simp only [hdir, if_true]
        exact .inl ⟨trivial, hmoved hdir (by rw [hthere]; simp)⟩
      · simp only [hdir]
        exact .inr ⟨⟨_, rfl⟩, h.refused _⟩
    | some node =>
      cases node with
      | dir => exact .inr ⟨⟨_, rfl⟩, h.refused _⟩
      | file old modified =>
        exact .inl ⟨rfl, hmoved (h.isDir_dropLast hne hthere) (by rw [hthere]; simp)⟩
      | link absolute to' =>
        exact .inl ⟨rfl, hmoved (h.isDir_dropLast hne hthere) (by rw [hthere]; simp)⟩
  · rw [heq]
    exact .inr ⟨⟨_, rfl⟩, h.refused _⟩

/-- A file is copied, with its content; what is not there, or is no file, is not. -/
theorem copy_left (h : Tame D root t) {source target : List ν} (hsource : Way D root source)
    (hfirm : ∀ node, t[root ++ source]? = some node → node.isLink = false) (hne : target ≠ [])
    (hway : Way D root target) (hlast : D (root ++ target)) (now : ℕ) :
    (∃ c, content t (root ++ source) = some c ∧ (copy now root source target t).value = .ok () ∧
      Left D root (copy now root source target t) (put (content t) (root ++ target) (some c))) ∨
    (∃ error, (copy now root source target t).value = .error error) ∧
      Left D root (copy now root source target t) (content t) := by
  unfold copy
  rcases read_cases h hsource hfirm with ⟨c, hc, heq⟩ | ⟨_, error, heq⟩
  · rw [heq]
    have hreached : ∀ f, Left D root (write now root target c t) f → Left D root
        ({ write now root target c t with
            reached := [root ++ source] ++ (write now root target c t).reached } :
                Reply ν β Unit) f := by
      intro f hleft
      refine ⟨fun loc hloc => ?_, hleft.tame, hleft.contents⟩
      exact (List.mem_append.mp hloc).elim (inside_singleton loc) (hleft.inside loc)
    exact (write_left h hne hway hlast now c).imp (fun ⟨hok, hleft⟩ => ⟨c, hc, hok, hreached _ hleft⟩)
      (fun ⟨herror, hleft⟩ => ⟨herror, hreached _ hleft⟩)
  · rw [heq]
    exact .inr ⟨⟨_, rfl⟩, h.refused _⟩

end

end Files
