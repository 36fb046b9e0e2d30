/-
# What a device keeps

`keeping.rs` of `itsanas-policy`: which files of an account belong on a device that cannot hold
them all. The files are put in order, most wanted first, and each is kept if it is inside the
filter and fits into what is left of the budget; one that does not fit is passed over.

The order is total on files with distinct paths, so the choice is a function of the files and not
of the list they come in, and it does not look at which of them are here
(`Keeping.choose_stable`). The room that is left is counted with a saturating sum: a budget of
`u64::MAX` is one that no sum exceeds, and then the files kept may be more than it.
-/
import Itsanas.Path
import Itsanas.Version

namespace Itsanas.Policy

/-- Which files matter most. -/
inductive Keeping.Order
  | newest
  | oldest
  | smallest
  deriving DecidableEq

/-- What a device has been told to hold of its own account. -/
structure Keeping where
  budget : Option ℕ
  order : Keeping.Order
  only : List Str

namespace Keeping

/-- One file the account has. -/
structure Candidate where
  path : Path
  size : ℕ
  modifiedUnix : ℕ
  here : Bool
  deriving DecidableEq

/-- Why a file does not belong on the device. -/
inductive Left
  | filtered
  | noRoom
  | tooLarge
  deriving DecidableEq

/-- What belongs here, best first, and what does not, as indices into the files. -/
structure ChoiceOf (τ : Type) where
  keep : List τ
  leave : List (τ × Left)
  keptBytes : ℕ

abbrev Choice := ChoiceOf ℕ

/-- Whether a path is inside the filter: at a prefix or under it. -/
def covers (keeping : Keeping) (path : Path) : Bool :=
  keeping.only.isEmpty || keeping.only.any fun only =>
    let only := only.rdropWhile (· = '/')
    path = only || (only.isPrefixOf path && (path.drop only.length).head? = some '/')

def toFetch (choice : Choice) (candidates : List Candidate) : List ℕ :=
  choice.keep.filter fun index => (candidates[index]?).any fun file => !file.here

def toRelease (choice : Choice) (candidates : List Candidate) : List ℕ :=
  (choice.leave.map Prod.fst).filter fun index => (candidates[index]?).any fun file => file.here

/-- What a file is ranked by: the lowest first, and by the path among equals. -/
def rank (order : Order) (file : Candidate) : ℤ ×ₗ Path :=
  toLex (match order with
    | .newest => -(file.modifiedUnix : ℤ)
    | .oldest => file.modifiedUnix
    | .smallest => file.size, file.path)

/-- Why the next file is left, if it is. -/
def verdict (keeping : Keeping) (keptBytes : ℕ) (file : Candidate) : Option Left :=
  if !keeping.covers file.path then some .filtered
  else
    match keeping.budget with
    | none => none
    | some budget =>
      if file.size > budget then some .tooLarge
      -- passed over, and not the end
      else if saturatingAdd keptBytes file.size > budget then some .noRoom
      else none

variable {τ υ : Type}

def place (keeping : Keeping) (choice : ChoiceOf τ) (row : Candidate × τ) : ChoiceOf τ :=
  match keeping.verdict choice.keptBytes row.1 with
  | some reason => { choice with leave := choice.leave ++ [(row.2, reason)] }
  | none =>
    { choice with keptBytes := saturatingAdd choice.keptBytes row.1.size, keep :=
      choice.keep ++ [row.2] }

/-- The files in order, most wanted first. -/
def ranked (order : Order) (rows : List (Candidate × τ)) : List (Candidate × τ) :=
  rows.insertionSort fun a b => rank order a.1 ≤ rank order b.1

def run (keeping : Keeping) (choice : ChoiceOf τ) (rows : List (Candidate × τ)) : ChoiceOf τ :=
  rows.foldl (keeping.place) choice

/-- Decide what belongs on the device. -/
def choose (keeping : Keeping) (candidates : List Candidate) : Choice :=
  keeping.run ⟨[], [], 0⟩ (ranked keeping.order candidates.zipIdx)

/-! ### One file -/

/-- What a reason says of a file with `bytes` kept before it. -/
def Left.Grounds (keeping : Keeping) (bytes : ℕ) (file : Candidate) : Left → Prop
  | .filtered => keeping.covers file.path = false
  | .tooLarge => keeping.covers file.path = true ∧ ∃ budget, keeping.budget = some budget ∧
      budget < file.size
  | .noRoom => keeping.covers file.path = true ∧
      ∃ budget, keeping.budget = some budget ∧ file.size ≤ budget ∧ budget < bytes + file.size

variable {keeping : Keeping} {reason : Left}

theorem verdict_grounds {bytes : ℕ} {file : Candidate}
    (h : keeping.verdict bytes file = some reason) : reason.Grounds keeping bytes file := by
  unfold verdict at h
  by_cases hcovers : keeping.covers file.path = true
  · rw [if_neg (by simp [hcovers])] at h
    cases hbudget : keeping.budget with
    | none =>
      rw [hbudget] at h
      cases h
    | some budget =>
      rw [hbudget] at h
      dsimp only at h
      by_cases hlarge : file.size > budget
      · rw [if_pos hlarge] at h
        obtain rfl := Option.some.inj h
        exact ⟨hcovers, budget, hbudget, hlarge⟩
      · rw [if_neg hlarge] at h
        by_cases hroom : saturatingAdd bytes file.size > budget
        · rw [if_pos hroom] at h
          obtain rfl := Option.some.inj h
          exact ⟨hcovers, budget, hbudget, not_lt.mp hlarge, lt_of_lt_of_le hroom (min_le_left _ _)⟩
        · rw [if_neg hroom] at h
          cases h
  · rw [if_pos (by simpa using hcovers)] at h
    obtain rfl := Option.some.inj h
    exact Bool.eq_false_iff.mpr hcovers

theorem place_none (choice : ChoiceOf τ) (row : Candidate × τ)
    (h : keeping.verdict choice.keptBytes row.1 = none) : keeping.place choice row =
      { choice with keptBytes := saturatingAdd choice.keptBytes row.1.size, keep := choice.keep ++ [row.2] } := by
  rw [place, h]

theorem place_some (choice : ChoiceOf τ) (row : Candidate × τ)
    (h : keeping.verdict choice.keptBytes row.1 = some reason) :
    keeping.place choice row = { choice with leave := choice.leave ++ [(row.2, reason)] } := by
  rw [place, h]

theorem run_cons (keeping : Keeping) (choice : ChoiceOf τ) (row : Candidate × τ)
    (rows : List (Candidate × τ)) :
    keeping.run choice (row :: rows) = keeping.run (keeping.place choice row) rows := rfl

theorem run_append (keeping : Keeping) (choice : ChoiceOf τ) (rows rows' : List (Candidate × τ)) :
    keeping.run choice (rows ++ rows') = keeping.run (keeping.run choice rows) rows' :=
      List.foldl_append

/-! ### All of them -/

/-- **Every file is kept or left, once.** -/
theorem run_perm (keeping : Keeping) : ∀ (rows : List (Candidate × τ)) (choice : ChoiceOf τ),
    ((keeping.run choice rows).keep ++ (keeping.run choice rows).leave.map Prod.fst).Perm
      ((choice.keep ++ choice.leave.map Prod.fst) ++ rows.map Prod.snd)
  | [], choice => by simp [run]
  | row :: rows, choice => by
    rw [run_cons]
    refine (run_perm keeping rows _).trans ?_
    cases h : keeping.verdict choice.keptBytes row.1 with
    | none =>
      rw [place_none choice row h]
      simp only [List.append_assoc, List.map_cons, List.singleton_append]
      exact (List.perm_middle.symm).append_left _
    | some reason =>
      rw [place_some choice row h]
      simp

/-- What is kept later comes after. -/
theorem run_keep (keeping : Keeping) : ∀ (rows : List (Candidate × τ)) (choice : ChoiceOf τ),
    ∃ more, (keeping.run choice rows).keep = choice.keep ++ more ∧ more ⊆ rows.map Prod.snd
  | [], choice => ⟨[], by simp [run], List.nil_subset _⟩
  | row :: rows, choice => by
    rw [run_cons]
    obtain ⟨more, hkeep, hsub⟩ := run_keep keeping rows (keeping.place choice row)
    rw [hkeep, List.map_cons]
    cases h : keeping.verdict choice.keptBytes row.1 with
    | none =>
      rw [place_none choice row h]
      refine ⟨row.2 :: more, by simp, fun t ht => ?_⟩
      rcases List.mem_cons.mp ht with rfl | ht
      · exact List.mem_cons_self
      · exact List.mem_cons_of_mem _ (hsub ht)
    | some reason =>
      rw [place_some choice row h]
      exact ⟨more, rfl, fun t ht => List.mem_cons_of_mem _ (hsub ht)⟩

/-- **What is left was so at its turn**, after the files before it. -/
theorem run_leave (keeping : Keeping) {t : τ} :
    ∀ (rows : List (Candidate × τ)) (choice : ChoiceOf τ), (t, reason) ∈
      (keeping.run choice rows).leave →
      (t, reason) ∈ choice.leave ∨ ∃ before row after, rows = before ++ row :: after ∧ row.2 = t ∧
        keeping.verdict (keeping.run choice before).keptBytes row.1 = some reason
  | [], choice, h => Or.inl h
  | row :: rows, choice, h => by
    rw [run_cons] at h
    rcases run_leave keeping rows _ h with hnow | ⟨before, row', after, hsplit, htag, hverdict⟩
    · cases hv : keeping.verdict choice.keptBytes row.1 with
      | none =>
        rw [place_none choice row hv] at hnow
        exact Or.inl hnow
      | some reason' =>
        rw [place_some choice row hv] at hnow
        rcases List.mem_append.mp hnow with hnow | hnow
        · exact Or.inl hnow
        · obtain ⟨rfl, rfl⟩ := Prod.mk.inj (List.mem_singleton.mp hnow)
          exact Or.inr ⟨[], row, rows, rfl, rfl, hv⟩
    · exact Or.inr ⟨row :: before, row', after, by rw [hsplit, List.cons_append], htag, hverdict⟩

theorem run_keep_covered (keeping : Keeping) {t : τ} :
    ∀ (rows : List (Candidate × τ)) (choice : ChoiceOf τ), t ∈ (keeping.run choice rows).keep →
      t ∈ choice.keep ∨ ∃ row ∈ rows, row.2 = t ∧ keeping.covers row.1.path = true
  | [], choice, h => Or.inl h
  | row :: rows, choice, h => by
    rw [run_cons] at h
    rcases run_keep_covered keeping rows _ h with hnow | ⟨row', hmem, htag, hcovers⟩
    · cases hv : keeping.verdict choice.keptBytes row.1 with
      | none =>
        rw [place_none choice row hv] at hnow
        rcases List.mem_append.mp hnow with hnow | hnow
        · exact Or.inl hnow
        · refine Or.inr ⟨row, List.mem_cons_self, (List.mem_singleton.mp hnow).symm, ?_⟩
          by_contra hnot
          rw [verdict, if_pos (by simpa using hnot)] at hv
          cases hv
      | some reason =>
        rw [place_some choice row hv] at hnow
        exact Or.inl hnow
    · exact Or.inr ⟨row', List.mem_cons_of_mem _ hmem, htag, hcovers⟩

/-! ### Sizes -/

section
variable {keeping : Keeping} {w : τ → ℕ}

/-- The bytes kept are the sum of the sizes, cut to a `u64`. -/
def Summed (w : τ → ℕ) (choice : ChoiceOf τ) :
    Prop := choice.keptBytes = min (choice.keep.map w).sum u64Max

theorem Summed.place {choice : ChoiceOf τ} (h : Summed w choice) {row : Candidate × τ} (hw : w row.2 = row.1.size) :
    Summed w (keeping.place choice row) := by
  unfold Summed at h ⊢
  cases hv : keeping.verdict choice.keptBytes row.1 with
  | none =>
    rw [place_none choice row hv]
    simp only [h, saturatingAdd, List.map_append, List.sum_append, List.map_cons, List.map_nil, List.sum_cons,
      List.sum_nil, hw]
    omega
  | some reason =>
    rw [place_some choice row hv]
    exact h

theorem Summed.run : ∀ {rows : List (Candidate × τ)} {choice : ChoiceOf τ}, Summed w choice →
    (∀ row ∈ rows, w row.2 = row.1.size) → Summed w (keeping.run choice rows)
  | [], _, h, _ => h
  | row :: _, _, h, hw => (h.place (hw row List.mem_cons_self)).run fun r hr =>
      hw r (List.mem_cons_of_mem _ hr)

/-- Below a budget that a sum can exceed, the sum stays below. -/
theorem run_keptBytes_le {budget : ℕ} (hbudget : keeping.budget = some budget) :
    ∀ {rows : List (Candidate × τ)} {choice : ChoiceOf τ}, choice.keptBytes ≤ budget →
      (keeping.run choice rows).keptBytes ≤ budget
  | [], _, h => h
  | row :: rows, choice, h => by
    rw [run_cons]
    refine run_keptBytes_le hbudget ?_
    cases hv : keeping.verdict choice.keptBytes row.1 with
    | none =>
      rw [place_none choice row hv]
      unfold verdict at hv
      rw [hbudget] at hv
      dsimp only at hv
      split_ifs at hv with _ _ hroom
      exact not_lt.mp hroom
    | some reason =>
      rw [place_some choice row hv]
      exact h

/-- With a budget no sum exceeds, whatever the filter covers is kept. -/
theorem run_keep_all (hbudget : keeping.budget = some u64Max) :
    ∀ {rows : List (Candidate × τ)} {choice : ChoiceOf τ}, (∀ row ∈ rows, row.1.size ≤ u64Max) →
      (keeping.run choice rows).keep =
        choice.keep ++ (rows.filter fun row => keeping.covers row.1.path).map Prod.snd
  | [], choice, _ => by simp [run]
  | row :: rows, choice, hsizes => by
    rw [run_cons, run_keep_all hbudget fun r hr => hsizes r (List.mem_cons_of_mem _ hr)]
    by_cases hcovers : keeping.covers row.1.path = true
    · have hv : keeping.verdict choice.keptBytes row.1 = none := by
        have hsize := hsizes row List.mem_cons_self
        have hsum : saturatingAdd choice.keptBytes row.1.size ≤ u64Max := min_le_right _ _
        rw [verdict, hbudget]
        simp [hcovers, not_lt.mpr hsize, not_lt.mpr hsum]
      rw [place_none choice row hv]
      simp [hcovers]
    · have hv : keeping.verdict choice.keptBytes row.1 = some .filtered := by
        rw [verdict, if_pos (by simpa using hcovers)]
      rw [place_some choice row hv]
      simp [hcovers]

end

/-! ### Files and their indices -/

/-- Tags ride along. -/
def ChoiceOf.map (f : τ → υ) (choice : ChoiceOf τ) : ChoiceOf υ :=
  ⟨choice.keep.map f, choice.leave.map fun r => (f r.1, r.2), choice.keptBytes⟩

/-- Rows that agree in what is looked at give the same choice. -/
theorem run_map (f : τ → υ) (g : Candidate → Candidate)
    (hg : ∀ bytes file, keeping.verdict bytes (g file) = keeping.verdict bytes file)
    (hsize : ∀ file, (g file).size = file.size) :
    ∀ (rows : List (Candidate × τ)) (choice : ChoiceOf τ),
    keeping.run (choice.map f) (rows.map fun row => (g row.1, f row.2)) =
      (keeping.run choice rows).map f
  | [], _ => rfl
  | row :: rows, choice => by
    have hplace : keeping.place (choice.map f) (g row.1, f row.2) =
        (keeping.place choice row).map f := by
      cases h : keeping.verdict choice.keptBytes row.1 with
      | none =>
        rw [place_none choice row h, place_none (choice.map f) (g row.1, f row.2) ((hg _ _).trans h)]
        simp [ChoiceOf.map, hsize]
      | some reason =>
        rw [place_some choice row h, place_some (choice.map f) (g row.1, f row.2) ((hg _ _).trans h)]
        simp [ChoiceOf.map]
    rw [List.map_cons, run_cons, hplace, run_cons]
    exact run_map f g hg hsize rows _

theorem ranked_map {order : Order} (f : τ → υ) (g : Candidate → Candidate)
    (hrank : ∀ file, rank order (g file) = rank order file) (rows : List (Candidate × τ)) :
    ranked order (rows.map fun row => (g row.1, f row.2)) =
      (ranked order rows).map fun row => (g row.1, f row.2) := by
  refine (List.map_insertionSort _ _ _ _ fun a _ b _ => ?_).symm
  simp only [hrank]

theorem sorted_ranked (order : Order) (rows : List (Candidate × τ)) :
    (ranked order rows).Pairwise fun a b => rank order a.1 ≤ rank order b.1 :=
  letI : IsTrans (Candidate × τ) fun a b => rank order a.1 ≤ rank order b.1 := ⟨fun _ _ _ => le_trans⟩
  letI : Std.Total fun a b : Candidate × τ => rank order a.1 ≤ rank order b.1 :=
    ⟨fun _ _ => le_total _ _⟩
  List.pairwise_insertionSort _ _

def sizeAt (candidates : List Candidate) (index : ℕ) : ℕ := (candidates[index]?).elim 0 Candidate.size

/-- Whether the file at `i` ranks before the one at `j`. -/
def ranksBefore (order : Order) (candidates : List Candidate) (i j : ℕ) : Bool :=
  (candidates[i]?).any fun a => (candidates[j]?).any fun b => rank order a < rank order b

/-- A choice with the files in the place of their indices. -/
def named (candidates : List Candidate) (choice : Choice) : ChoiceOf (Option Candidate) :=
  choice.map fun index => candidates[index]?

/-- The files once what was chosen is fetched and the rest is let go. -/
def act (candidates : List Candidate) (choice : Choice) : List Candidate :=
  candidates.zipIdx.map fun row => { row.1 with here := row.2 ∈ choice.keep }

section
variable {keeping : Keeping} {candidates : List Candidate}

theorem mem_rows {row : Candidate × ℕ} :
    row ∈ ranked keeping.order candidates.zipIdx ↔ candidates[row.2]? = some row.1 := by
  rw [ranked, List.mem_insertionSort, List.mem_zipIdx_iff_getElem?]

/-- **The sum of what is kept.** It is within the budget if the budget is one that a sum can
exceed, or if all that the filter covers fits in a `u64`. -/
theorem sum_kept_iff {budget : ℕ} (hbudget : keeping.budget = some budget) (hle : budget ≤ u64Max)
    (hsizes : ∀ file ∈ candidates, file.size ≤ u64Max) :
    ((keeping.choose candidates).keep.map (sizeAt candidates)).sum ≤ budget ↔
      budget < u64Max ∨
        ((candidates.filter fun file => keeping.covers file.path).map Candidate.size).sum ≤
          u64Max := by
  have hmem : ∀ row ∈ ranked keeping.order candidates.zipIdx, sizeAt candidates row.2 =
      row.1.size := by
    intro row hrow
    rw [sizeAt, mem_rows.mp hrow, Option.elim_some]
  have hsummed : Summed (sizeAt candidates) (keeping.choose candidates) :=
    Summed.run (by simp [Summed]) hmem
  have hkept : (keeping.choose candidates).keptBytes ≤ budget :=
    run_keptBytes_le hbudget (Nat.zero_le _)
  unfold Summed at hsummed
  rcases Nat.lt_or_ge budget u64Max with hlt | hge
  · refine iff_of_true ?_ (Or.inl hlt)
    omega
  · -- no sum exceeds the budget, so what the filter covers is kept whole
    obtain rfl : budget = u64Max := le_antisymm hle hge
    have hall : (keeping.choose candidates).keep =
        ((ranked keeping.order candidates.zipIdx).filter fun row => keeping.covers row.1.path).map
            Prod.snd := by
      refine run_keep_all hbudget fun row hrow => hsizes row.1 ?_
      exact List.mem_of_getElem? (mem_rows.mp hrow)
    have hperm :
      ((ranked keeping.order candidates.zipIdx).filter fun row => keeping.covers row.1.path).Perm
        (candidates.zipIdx.filter fun row => keeping.covers row.1.path) :=
      (List.perm_insertionSort _ _).filter _
    have hsizesEq :
      ((ranked keeping.order candidates.zipIdx).filter fun row => keeping.covers row.1.path).map
        (fun row => sizeAt candidates row.2) =
        ((ranked keeping.order candidates.zipIdx).filter fun row => keeping.covers row.1.path).map
          fun row => row.1.size :=
      List.map_congr_left fun row hrow => hmem row (List.mem_of_mem_filter hrow)
    have hfst : (candidates.zipIdx.filter fun row => keeping.covers row.1.path).map
      (fun row => row.1.size) =
        (candidates.filter fun file => keeping.covers file.path).map Candidate.size := by
      have hzip : candidates = candidates.zipIdx.map Prod.fst :=
        (List.zipIdx_map_fst 0 candidates).symm
      conv_rhs => rw [hzip]
      rw [List.filter_map, List.map_map]
      rfl
    have hsum : ((keeping.choose candidates).keep.map (sizeAt candidates)).sum =
        ((candidates.filter fun file => keeping.covers file.path).map Candidate.size).sum := by
      rw [hall, List.map_map, Function.comp_def, hsizesEq, (hperm.map _).sum_eq, hfst]
    rw [hsum]
    exact ⟨Or.inr, fun h => h.resolve_left (lt_irrefl _)⟩

theorem rank_path {order : Order} {a b : Candidate}
    (h : rank order a = rank order b) : a.path = b.path :=
  congrArg (fun r : ℤ ×ₗ Path => (ofLex r).2) h

variable (hpaths : (candidates.map Candidate.path).Nodup)
include hpaths

theorem eq_of_path {a b : Candidate} (ha : a ∈ candidates) (hb : b ∈ candidates)
    (h : a.path = b.path) : a = b :=
  List.inj_on_of_nodup_map hpaths ha hb h

theorem ordered_rows :
    (ranked keeping.order candidates.zipIdx).Pairwise fun a b => rank keeping.order a.1 <
      rank keeping.order b.1 := by
  have hdistinct : (ranked keeping.order candidates.zipIdx).Pairwise fun a b => a.1.path ≠
      b.1.path := by
    have hperm : (ranked keeping.order candidates.zipIdx).Perm candidates.zipIdx :=
      List.perm_insertionSort _ _
    refine (hperm.pairwise_iff fun h => Ne.symm h).mpr ?_
    have hfst : candidates.zipIdx.map (fun row => row.1.path) = candidates.map Candidate.path := by
      calc candidates.zipIdx.map (fun row => row.1.path)
          = (candidates.zipIdx.map Prod.fst).map Candidate.path := by rw [List.map_map]; rfl
        _ = candidates.map Candidate.path := by rw [List.zipIdx_map_fst]
    exact List.pairwise_map.mp (hfst ▸ hpaths)
  exact ((sorted_ranked _ _).and hdistinct).imp fun h => lt_of_le_of_ne h.1 fun he =>
    h.2 (rank_path he)

/-- **A file is left with grounds**, and for room if it does not fit beside those kept that rank
before it. -/
theorem grounds_of_mem {index : ℕ} (h : (index, reason) ∈ (keeping.choose candidates).leave) :
    ∃ file, candidates[index]? = some file ∧ reason.Grounds keeping
      (((keeping.choose candidates).keep.filter fun other =>
        ranksBefore keeping.order candidates other index).map (sizeAt candidates)).sum file := by
  obtain hnone | ⟨before, row, after, hsplit, rfl, hverdict⟩ := run_leave keeping _ _ h
  · exact absurd hnone List.not_mem_nil
  have hmem : ∀ r, r ∈ before ++ row :: after → candidates[r.2]? = some r.1 := fun r hr =>
    mem_rows.mp (hsplit ▸ hr)
  have hrow : candidates[row.2]? = some row.1 := hmem row (by simp)
  have hordered : (ranked keeping.order candidates.zipIdx).Pairwise fun a b =>
    rank keeping.order a.1 < rank keeping.order b.1 := ordered_rows hpaths
  rw [hsplit, List.pairwise_append] at hordered
  obtain ⟨-, hafter, hbefore⟩ := hordered
  -- those kept before it rank before it, those kept later do not
  obtain ⟨first, hfirst, hfirstSub⟩ := run_keep keeping before ⟨[], [], 0⟩
  obtain ⟨more, hkeep, hmoreSub⟩ := run_keep keeping (row :: after) (keeping.run ⟨[], [], 0⟩ before)
  have hchoose : (keeping.choose candidates).keep = first ++ more := by
    rw [choose, hsplit, run_append, hkeep, hfirst, List.nil_append]
  have hyes : first.filter (fun other => ranksBefore keeping.order candidates other row.2) =
      first := by
    refine List.filter_eq_self.mpr fun other hother => ?_
    obtain ⟨r, hr, rfl⟩ := List.mem_map.mp (hfirstSub hother)
    rw [ranksBefore, hmem r (List.mem_append_left _ hr), hrow]
    exact decide_eq_true (hbefore r hr row List.mem_cons_self)
  have hno : more.filter (fun other => ranksBefore keeping.order candidates other row.2) = [] := by
    refine List.filter_eq_nil_iff.mpr fun other hother hlt => ?_
    obtain ⟨r, hr, rfl⟩ := List.mem_map.mp (hmoreSub hother)
    rw [ranksBefore, hmem r (List.mem_append_right _ hr), hrow] at hlt
    have hlt : rank keeping.order r.1 < rank keeping.order row.1 := of_decide_eq_true hlt
    rcases List.mem_cons.mp hr with rfl | hr
    · exact lt_irrefl _ hlt
    · exact lt_asymm hlt ((List.pairwise_cons.mp hafter).1 r hr)
  have hsummed : Summed (sizeAt candidates) (keeping.run ⟨[], [], 0⟩ before) := by
    refine Summed.run (by simp [Summed]) fun r hr => ?_
    rw [sizeAt, hmem r (List.mem_append_left _ hr), Option.elim_some]
  have hbytes : (keeping.run ⟨[], [], 0⟩ before).keptBytes ≤ (first.map (sizeAt candidates)).sum := by
    rw [hsummed, hfirst, List.nil_append]
    exact min_le_left _ _
  refine ⟨row.1, hrow, ?_⟩
  rw [hchoose, List.filter_append, hyes, hno, List.append_nil]
  have hgrounds := verdict_grounds hverdict
  cases reason with
  | filtered => exact hgrounds
  | tooLarge => exact hgrounds
  | noRoom =>
    obtain ⟨hcovers, budget, hbudget, hsize, hroom⟩ := hgrounds
    exact ⟨hcovers, budget, hbudget, hsize, by omega⟩

/-- The files in order do not depend on the list they come in. -/
theorem ranked_perm {candidates' : List Candidate} (hperm : candidates'.Perm candidates) :
    ranked keeping.order (candidates'.map fun file => (file, some file)) =
      ranked keeping.order (candidates.map fun file => (file, some file)) := by
  have hrows : (ranked keeping.order (candidates'.map fun file => (file, some file))).Perm
      (ranked keeping.order (candidates.map fun file => (file, some file))) :=
    (List.perm_insertionSort _ _).trans ((hperm.map _).trans (List.perm_insertionSort _ _).symm)
  refine hrows.eq_of_pairwise (fun a b ha hb hab hba => ?_) (sorted_ranked _ _) (sorted_ranked _ _)
  obtain ⟨file, hfile, rfl⟩ := List.mem_map.mp (List.mem_insertionSort _ |>.mp ha)
  obtain ⟨file', hfile', rfl⟩ := List.mem_map.mp (List.mem_insertionSort _ |>.mp hb)
  rw [eq_of_path hpaths (hperm.mem_iff.mp hfile) hfile' (rank_path (le_antisymm hab hba))]

end

/-- A file without whether it is here. -/
def Candidate.bare (file : Candidate) : Candidate := { file with here := false }

theorem named_choose (keeping : Keeping) (candidates : List Candidate) :
    named candidates (keeping.choose candidates) = keeping.run ⟨[], [], 0⟩
      (ranked keeping.order (candidates.map fun file => (file, some file))) := by
  have hrows : candidates.zipIdx.map (fun row => (id row.1, candidates[row.2]?)) =
      candidates.map fun file => (file, some file) := by
    calc candidates.zipIdx.map (fun row => (id row.1, candidates[row.2]?))
        = candidates.zipIdx.map (fun row => (row.1, some row.1)) := by
          refine List.map_congr_left fun row hrow => ?_
          rw [List.mem_zipIdx_iff_getElem?.mp hrow, id]
      _ = (candidates.zipIdx.map Prod.fst).map fun file =>
        (file, some file) := by rw [List.map_map]; rfl
      _ = candidates.map fun file => (file, some file) := by rw [List.zipIdx_map_fst]
  rw [← hrows, ranked_map (fun index => candidates[index]?) id fun _ => rfl]
  exact (run_map (fun index => candidates[index]?) id (fun _ _ => rfl) (fun _ => rfl) _
    ⟨[], [], 0⟩).symm

/-- **Which files are here makes no difference.** -/
theorem choose_bare (keeping : Keeping) (candidates : List Candidate) :
    keeping.choose (candidates.map Candidate.bare) = keeping.choose candidates := by
  have hrank : ∀ file : Candidate, rank keeping.order file.bare = rank keeping.order file :=
    fun _ => rfl
  have hverdict : ∀ bytes (file : Candidate), keeping.verdict bytes file.bare =
      keeping.verdict bytes file :=
    fun _ _ => rfl
  have hmap : ∀ choice : Choice, choice.map id = choice := fun choice => by simp [ChoiceOf.map]
  have hrows : (candidates.map Candidate.bare).zipIdx =
      candidates.zipIdx.map fun row => (row.1.bare, id row.2) := by
    rw [List.zipIdx_map]
    rfl
  rw [choose, hrows, ranked_map id Candidate.bare hrank]
  have hrun :=
    run_map id Candidate.bare hverdict (fun _ => rfl) (ranked keeping.order candidates.zipIdx)
    ⟨[], [], 0⟩
  rw [hmap, hmap] at hrun
  exact hrun

theorem choose_congr (keeping : Keeping) {candidates candidates' : List Candidate}
    (h : candidates'.map Candidate.bare = candidates.map Candidate.bare) :
    keeping.choose candidates' = keeping.choose candidates := by
  rw [← choose_bare, h, choose_bare]

theorem bare_act (candidates : List Candidate) (choice : Choice) :
    (act candidates choice).map Candidate.bare = candidates.map Candidate.bare := by
  calc (act candidates choice).map Candidate.bare
      = (candidates.zipIdx.map Prod.fst).map Candidate.bare := by
        rw [act, List.map_map, List.map_map]
        rfl
    _ = candidates.map Candidate.bare := by rw [List.zipIdx_map_fst]

theorem perm_choose (keeping : Keeping) (candidates : List Candidate) :
    ((keeping.choose candidates).keep ++ (keeping.choose candidates).leave.map Prod.fst).Perm
      (List.range candidates.length) := by
  have hrows : ((ranked keeping.order candidates.zipIdx).map Prod.snd).Perm
      (List.range candidates.length) := by
    have hperm : (ranked keeping.order candidates.zipIdx).Perm candidates.zipIdx :=
      List.perm_insertionSort _ _
    refine (hperm.map Prod.snd).trans (List.Perm.of_eq ?_)
    rw [List.zipIdx_map_snd, List.range_eq_range']
  exact (run_perm keeping _ ⟨[], [], 0⟩).trans hrows

/-- After acting there is nothing to fetch and nothing to let go. -/
theorem settled_act (keeping : Keeping) (candidates : List Candidate) :
    toFetch (keeping.choose candidates) (act candidates (keeping.choose candidates)) = [] ∧
      toRelease (keeping.choose candidates) (act candidates (keeping.choose candidates)) = [] := by
  have hnodup :
      ((keeping.choose candidates).keep ++ (keeping.choose candidates).leave.map Prod.fst).Nodup :=
    (perm_choose keeping candidates).nodup_iff.mpr List.nodup_range
  have hhere : ∀ index file, (act candidates (keeping.choose candidates))[index]? = some file →
      file.here = decide (index ∈ (keeping.choose candidates).keep) := by
    intro index file hfile
    rw [act, List.getElem?_map, List.getElem?_zipIdx, Option.map_map] at hfile
    obtain ⟨original, -, rfl⟩ := Option.map_eq_some_iff.mp hfile
    simp
  constructor
  · refine List.filter_eq_nil_iff.mpr fun index hindex hany => ?_
    obtain ⟨file, hfile, hnot⟩ := (Option.any_eq_true _ _).mp hany
    rw [hhere index file hfile, decide_eq_true hindex] at hnot
    cases hnot
  · refine List.filter_eq_nil_iff.mpr fun index hindex hany => ?_
    obtain ⟨file, hfile, hyes⟩ := (Option.any_eq_true _ _).mp hany
    rw [hhere index file hfile] at hyes
    exact (List.nodup_append'.mp hnodup).2.2 (of_decide_eq_true hyes) hindex

/-- **Choosing what to keep is a function of the account.** Each file is kept or left, once, and
left with grounds. What is kept is within a budget just when the budget is below `u64::MAX` or
the files the filter covers sum to no more than that. The choice depends neither on the order the
files are listed in nor on which of them are here, and acting on it leaves nothing to do. -/
theorem choose_stable (keeping : Keeping) (candidates : List Candidate)
    (hpaths : (candidates.map Candidate.path).Nodup) (hsizes : ∀ file ∈ candidates, file.size ≤ u64Max)
    (hle : ∀ budget, keeping.budget = some budget → budget ≤ u64Max) :
    let choice := keeping.choose candidates
    (choice.keep ++ choice.leave.map Prod.fst).Perm (List.range candidates.length) ∧
    (∀ index ∈ choice.keep, ∃ file, candidates[index]? = some file ∧ keeping.covers file.path = true) ∧
    (∀ index reason, (index, reason) ∈ choice.leave → ∃ file, candidates[index]? = some file ∧
      reason.Grounds keeping ((choice.keep.filter fun other =>
        ranksBefore keeping.order candidates other index).map (sizeAt candidates)).sum file) ∧
    (∀ budget, keeping.budget = some budget → ((choice.keep.map (sizeAt candidates)).sum ≤ budget ↔
      budget < u64Max ∨
        ((candidates.filter fun file => keeping.covers file.path).map Candidate.size).sum ≤ u64Max)) ∧
    (∀ candidates' : List Candidate, candidates'.Perm candidates →
      named candidates' (keeping.choose candidates') = named candidates choice) ∧
    (∀ candidates' : List Candidate, candidates'.map Candidate.bare = candidates.map Candidate.bare →
      keeping.choose candidates' = choice) ∧
    keeping.choose (act candidates choice) = choice ∧ toFetch choice (act candidates choice) = [] ∧
      toRelease choice (act candidates choice) = [] := by
  refine ⟨perm_choose keeping candidates, fun index hindex => ?_, fun index reason h =>
    grounds_of_mem hpaths h,
    fun budget hbudget => sum_kept_iff hbudget (hle budget hbudget) hsizes, fun candidates' hperm =>
      ?_,
    fun candidates' h => choose_congr keeping h, choose_congr keeping (bare_act _ _),
      settled_act keeping candidates⟩
  · obtain hnone | ⟨row, hrow, rfl, hcovers⟩ := run_keep_covered keeping _ _ hindex
    · exact absurd hnone List.not_mem_nil
    · exact ⟨row.1, mem_rows.mp hrow, hcovers⟩
  · rw [named_choose, named_choose, ranked_perm hpaths hperm]

/-- **With a budget of `u64::MAX` more is kept than the budget.** -/
theorem choose_past_budget :
    let keeping : Keeping := ⟨some u64Max, .newest, []⟩
    let files : List Candidate := [⟨"a".toList, u64Max, 1, false⟩, ⟨"b".toList, 1, 0, false⟩]
    (keeping.choose files).keep = [0, 1] ∧ (keeping.choose files).keptBytes = u64Max ∧
      ((keeping.choose files).keep.map (sizeAt files)).sum = u64Max + 1 := by
  decide +kernel

/-- Two files of which one fits: the newer is kept, whichever is listed first. -/
theorem choose_stable_pair :
    let keeping : Keeping := ⟨some 10, .newest, []⟩
    let files : List Candidate := [⟨"a".toList, 6, 1, true⟩, ⟨"b".toList, 7, 2, false⟩]
    (keeping.choose files).keep = [1] ∧ (keeping.choose files).leave = [(0, .noRoom)] ∧
      ((keeping.choose files).keep.map (sizeAt files)).sum ≤ 10 := by
  intro keeping files
  have hfits := (choose_stable keeping files (by decide) (by decide) (by decide)).2.2.2.1 10 rfl
  exact ⟨by decide +kernel, by decide +kernel, hfits.mpr (Or.inl (by decide))⟩

end Keeping

end Itsanas.Policy
