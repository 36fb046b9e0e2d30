/-
# The rolling check of a vault's disk

`vault.rs` of `itsanas-store`: a vault looks for the blobs of its rows, some rows at a time, and
takes out the rows whose blob is gone, so that the owners hear of it. The place it has reached is
kept in memory and written to the disk when a row was taken out, at the end of a pass, at the first
check of a process, and otherwise once a quarter of an hour.

Whether a blob is there is asked twice, once for the slice and once more when the rows are taken
out; what the disk answers is given with each call. Each call is a step of `Lib/Resume.lean`
(`Watched.step_resumes`), which has what follows: no row is skipped, whatever restarts there are.

The compaction at the end of a pass is left out, and the calls do not fail.
-/
import Itsanas.Evictable
import Itsanas.Lib.Pages
import Itsanas.Lib.Resume

namespace Itsanas

variable {K : Crypto}

/-- The key of a row: its owner, then its chunk. -/
abbrev ChunkKey : Type := UserId ×ₗ ChunkId

/-- The cursor as this process last moved it, and when it was last written. -/
structure CursorMemo where
  cursor : Option ChunkKey
  written : ℕ

/-- A vault and its disk check: the cursor on the disk, and the process's own, which it has from
its first check on. -/
structure Checked (K : Crypto) where
  vault : Depot K
  onDisk : Option ChunkKey
  memo : Option CursorMemo

/-- The rows one check looks at, and whether they run to the last row. -/
structure CheckSlice where
  rows : List ChunkKey
  reachedEnd : Bool

/-- What one slice found. -/
structure DiskCheck where
  checked : ℕ
  removed : ℕ
  deriving DecidableEq

/-- A quarter of an hour, in the unit of instants. -/
def checkCursorStep : ℕ := 1000000000 * (15 * 60)

/-- The keys of the rows, in order. -/
def rowKeys (v : Depot K) : List ChunkKey := v.chunks.toList.map Prod.fst

/-- Whether the cursor is written: with a removal, at the end of a pass, at the first step, or a
step after the last write. -/
def writesCursor (memo : Option CursorMemo) (next : Option ChunkKey) (removed : Bool)
    (now : ℕ) : Bool :=
  removed || next.isNone || memo.all fun memo => checkCursorStep ≤ now - memo.written

/-- Move the cursor to `next`: what is on the disk then, the memo, and whether the disk's
changed. -/
def paceCursor (memo : Option CursorMemo) (next onDisk : Option ChunkKey) (removed : Bool) (now : ℕ) :
    Option ChunkKey × CursorMemo × Bool :=
  let write := writesCursor memo next removed now
  let written := match memo with
    | some memo => if write then now else memo.written
    | none => now
  (if write then next else onDisk, ⟨next, written⟩, write && decide (onDisk ≠ next))

/-- Take out a row whose blob is not there now, with its mark, and count it. -/
def dropGone {K : Crypto} (atWrite : ChunkKey → Bool) (acc : Depot K × ℕ)
    (key : ChunkKey) : Depot K × ℕ :=
  if atWrite key then acc
  else if (acc.1.chunks[key]?).isNone then acc
  else (Depot.unindex (ofLex key).1 (ofLex key).2 acc.1, acc.2 + 1)

namespace Checked

/-- The process's cursor, or the disk's at its first check. -/
def cursor (s : Checked K) : Option ChunkKey := s.memo.elim s.onDisk CursorMemo.cursor

/-- The next `limit` rows after the cursor. -/
def checkSlice (s : Checked K) (limit : ℕ) : CheckSlice :=
  let later := Pages.after (rowKeys s.vault) s.cursor
  { rows := later.take limit, reachedEnd := decide (later.length ≤ limit) }

/-- Check the next rows, of which `atRead` and then `atWrite` say whether the blob is there. -/
def checkDiskAt (s : Checked K) (limit now : ℕ)
    (atRead atWrite : ChunkKey → Bool) : Checked K × DiskCheck :=
  let limit := min limit Depot.maxCheckBatch
  if limit = 0 then (s, ⟨0, 0⟩)
  else
    let slice := s.checkSlice limit
    let gone := slice.rows.filter fun key => !atRead key
    let (vault, removed) := gone.foldl (dropGone atWrite) (s.vault, 0)
    let next := if slice.reachedEnd then none else slice.rows.getLast?
    let (onDisk, memo, moved) := paceCursor s.memo next s.onDisk (0 < removed) now
    let check : DiskCheck := ⟨slice.rows.length, removed⟩
    -- a transaction that changed nothing is not committed
    if 0 < removed ∨ moved then ({ vault := vault, onDisk := onDisk, memo := some memo }, check)
    else ({ s with memo := some memo }, check)

end Checked

/-! ### What a call does -/

theorem pairwise_rowKeys (v : Depot K) : (rowKeys v).Pairwise (· < ·) := by
  unfold rowKeys
  rw [List.pairwise_map]
  exact (Std.ExtTreeMap.ordered_keys_toList (t := v.chunks)).imp fun h => compare_lt_iff_lt.mp h

theorem mem_rowKeys {v : Depot K} {key : ChunkKey} :
    key ∈ rowKeys v ↔ (v.chunks[key]?).isSome = true :=
  Table.mem_keys

theorem chunks_dropGone (atWrite : ChunkKey → Bool) (acc : Depot K × ℕ) (key other : ChunkKey) :
    (dropGone atWrite acc key).1.chunks[other]? =
      if key = other ∧ atWrite key = false then none else acc.1.chunks[other]? := by
  unfold dropGone
  cases hthere : atWrite key with
  | true => simp
  | false =>
    rw [if_neg (by simp)]
    by_cases hnone : (acc.1.chunks[key]?).isNone = true
    · rw [if_pos hnone]
      split_ifs with heq
      · rw [← heq.1]
        exact Option.isNone_iff_eq_none.mp hnone
      · rfl
    · rw [if_neg hnone, Depot.chunks_unindex, Table.getElem?_erase']
      simp [Depot.chunkKey]

theorem dropGone_count_le (atWrite : ChunkKey → Bool) (acc : Depot K × ℕ) (key : ChunkKey) :
    acc.2 ≤ (dropGone atWrite acc key).2 ∧
      ((dropGone atWrite acc key).2 = acc.2 → dropGone atWrite acc key = acc) := by
  unfold dropGone
  split_ifs
  · exact ⟨le_rfl, fun _ => rfl⟩
  · exact ⟨le_rfl, fun _ => rfl⟩
  · exact ⟨Nat.le_succ _, fun h => absurd h (Nat.succ_ne_self _)⟩

theorem foldl_dropGone_count (atWrite : ChunkKey → Bool) :
    ∀ (gone : List ChunkKey) (acc : Depot K × ℕ),
    acc.2 ≤ (gone.foldl (dropGone atWrite) acc).2 ∧
      ((gone.foldl (dropGone atWrite) acc).2 = acc.2 → gone.foldl (dropGone atWrite) acc = acc)
  | [], _ => ⟨le_rfl, fun _ => rfl⟩
  | key :: gone, acc => by
    obtain ⟨hle, hsame⟩ := dropGone_count_le atWrite acc key
    obtain ⟨hle', hsame'⟩ := foldl_dropGone_count atWrite gone (dropGone atWrite acc key)
    refine ⟨hle.trans hle', fun h => ?_⟩
    rw [List.foldl_cons] at h ⊢
    have hfirst : (dropGone atWrite acc key).2 = acc.2 := le_antisymm (hle'.trans h.le) hle
    rw [hsame' (h.trans hfirst.symm), hsame hfirst]

/-- The rows that go are those that are gone at both looks. -/
theorem chunks_foldl_dropGone (atWrite : ChunkKey → Bool) (other : ChunkKey) :
    ∀ (gone : List ChunkKey) (acc : Depot K × ℕ),
      (gone.foldl (dropGone atWrite) acc).1.chunks[other]? =
      if other ∈ gone ∧ atWrite other = false then none else acc.1.chunks[other]?
  | [], _ => by simp
  | key :: gone, acc => by
    rw [List.foldl_cons, chunks_foldl_dropGone atWrite other gone, chunks_dropGone]
    by_cases heq : key = other
    · subst heq
      cases hthere : atWrite key <;> simp
    · simp [heq, Ne.symm heq]

variable {limit : ℕ}

namespace Checked

/-- The rows that are looked at in one call. -/
def looked (s : Checked K) (limit : ℕ) : CheckSlice := s.checkSlice (min limit Depot.maxCheckBatch)

/-- Where the cursor goes. -/
def next (s : Checked K) (limit : ℕ) : Option ChunkKey :=
  if (s.looked limit).reachedEnd then none else (s.looked limit).rows.getLast?

/-- How many rows are taken out. -/
def removed (s : Checked K) (limit : ℕ) (atRead atWrite : ChunkKey → Bool) : ℕ :=
  (((s.looked limit).rows.filter fun key => !atRead key).foldl (dropGone atWrite) (s.vault, 0)).2

/-- Whether the call writes the cursor. -/
def writes (s : Checked K) (limit now : ℕ) (atRead atWrite : ChunkKey → Bool) : Bool :=
  writesCursor s.memo (s.next limit) (0 < s.removed limit atRead atWrite) now

theorem limit_ne_zero (hlimit : 0 < limit) : min limit Depot.maxCheckBatch ≠ 0 := by
  have : 0 < Depot.maxCheckBatch := by decide
  omega

/-- **What a call leaves**: the rows that are gone taken out, the cursor at its next place in
memory, and there on the disk if it was written. -/
theorem checkDiskAt_eq (s : Checked K) (hlimit : 0 < limit) (now : ℕ)
    (atRead atWrite : ChunkKey → Bool) :
    (s.checkDiskAt limit now atRead atWrite).1.vault =
        (((s.looked limit).rows.filter fun key => !atRead key).foldl (dropGone atWrite)
          (s.vault, 0)).1 ∧
      (s.checkDiskAt limit now atRead atWrite).1.cursor = s.next limit ∧
      (s.checkDiskAt limit now atRead atWrite).1.onDisk =
        if s.writes limit now atRead atWrite then s.next limit else s.onDisk := by
  have hunfold : s.checkDiskAt limit now atRead atWrite =
      if 0 < s.removed limit atRead atWrite ∨
          (paceCursor s.memo (s.next limit) s.onDisk (0 < s.removed limit atRead atWrite) now).2.2 =
              true then
        ({ vault := (((s.looked limit).rows.filter fun key => !atRead key).foldl (dropGone atWrite)
          (s.vault, 0)).1
           onDisk :=
             (paceCursor s.memo (s.next limit) s.onDisk (0 < s.removed limit atRead atWrite) now).1
           memo := some (paceCursor s.memo (s.next limit) s.onDisk
             (0 < s.removed limit atRead atWrite) now).2.1 },
          ⟨(s.looked limit).rows.length, s.removed limit atRead atWrite⟩)
      else
        ({ s with
           memo := some (paceCursor s.memo (s.next limit) s.onDisk
             (0 < s.removed limit atRead atWrite) now).2.1 },
          ⟨(s.looked limit).rows.length, s.removed limit atRead atWrite⟩) := by
    unfold checkDiskAt
    dsimp only
    rw [if_neg (limit_ne_zero hlimit)]
    rfl
  rw [hunfold]
  by_cases hchanged : 0 < s.removed limit atRead atWrite ∨
      (paceCursor s.memo (s.next limit) s.onDisk (0 < s.removed limit atRead atWrite) now).2.2 = true
  · rw [if_pos hchanged]
    exact ⟨rfl, rfl, rfl⟩
  · rw [if_neg hchanged]
    rw [not_or, Nat.not_lt, Nat.le_zero] at hchanged
    obtain ⟨hnone, hmoved⟩ := hchanged
    refine ⟨?_, rfl, ?_⟩
    · -- Nothing was taken out.
      rw [(foldl_dropGone_count atWrite _ (s.vault, 0)).2 hnone]
    · -- The cursor was not written, or is where it was.
      split_ifs with hwrites
      · by_contra hne
        refine hmoved ?_
        unfold paceCursor
        dsimp only
        rw [Bool.and_eq_true]
        exact ⟨hwrites, by simpa using hne⟩
      · rfl

end Checked

/-! ### Runs -/

inductive CheckEvent
  /-- A call, and whether each blob is there when it looks, and when it takes out rows. -/
  | check (limit now : ℕ) (atRead atWrite : ChunkKey → Bool)
  /-- The process starts again. -/
  | restart

/-- A vault being checked, and what happened: the rows looked at in this pass and since the cursor
was written, the latter at each restart of this pass, and the rows at the end of the last pass. -/
structure Watched (K : Crypto) where
  checked : Checked K
  pass : List ChunkKey
  unwritten : List ChunkKey
  restarts : List (List ChunkKey)
  atEnd : Option (List ChunkKey)

namespace Watched

def start (s : Checked K) : Watched K := ⟨s, [], [], [], none⟩

def step (w : Watched K) : CheckEvent → Watched K
  | .restart =>
    { w with checked := { w.checked with memo := none }, restarts := w.unwritten :: w.restarts }
  | .check limit now atRead atWrite =>
    let checked := (w.checked.checkDiskAt limit now atRead atWrite).1
    let slice := w.checked.looked limit
    if limit = 0 then w
    else if slice.reachedEnd then ⟨checked, [], [], [], some (rowKeys checked.vault)⟩
    else
      { w with
        checked := checked
        pass := w.pass ++ slice.rows
        unwritten :=
          if w.checked.writes limit now atRead atWrite then [] else w.unwritten ++ slice.rows }

def run (w : Watched K) (events : List CheckEvent) : Watched K := events.foldl step w

/-- What a run is to the library. -/
def resume (w : Watched K) : Resume.State ChunkKey where
  rows := { key | key ∈ rowKeys w.checked.vault }
  memory := w.checked.cursor
  disk := w.checked.onDisk
  pass := w.pass
  unwritten := w.unwritten
  restarts := w.restarts
  atEnd := w.atEnd.map fun rows => { key | key ∈ rows }

theorem mem_after {rows : List ChunkKey} {cursor : Option ChunkKey} {key : ChunkKey} :
    key ∈ Pages.after rows cursor ↔ key ∈ rows ∧ ¬Resume.Reached cursor key := by
  unfold Pages.after Resume.Reached
  rw [List.mem_filter]
  cases cursor <;> simp

/-- Which rows are left after a call. -/
theorem mem_rowKeys_check (s : Checked K) (hlimit : 0 < limit) (now : ℕ)
    (atRead atWrite : ChunkKey → Bool) (key : ChunkKey) :
    key ∈ rowKeys (s.checkDiskAt limit now atRead atWrite).1.vault ↔
      key ∈ rowKeys s.vault ∧
        ¬((key ∈ (s.looked limit).rows ∧ atRead key = false) ∧ atWrite key = false) := by
  rw [mem_rowKeys, (s.checkDiskAt_eq hlimit now atRead atWrite).1, chunks_foldl_dropGone, mem_rowKeys]
  simp only [List.mem_filter, Bool.not_eq_true']
  split_ifs with hgone
  · simp [hgone]
  · simp [hgone]

/-- A call that does not reach the end. -/
theorem looks {w : Watched K} (hlimit : 0 < limit) (now : ℕ) (atRead atWrite : ChunkKey → Bool)
    (hmore : (w.checked.looked limit).reachedEnd = false) :
    ∃ last, Resume.Looks w.resume (w.step (.check limit now atRead atWrite)).resume
      (w.checked.looked limit).rows last := by
  set s := w.checked with hs
  set later := Pages.after (rowKeys s.vault) s.cursor with hlater
  have hsorted : later.Pairwise (· < ·) := (pairwise_rowKeys s.vault).filter _
  have hrows : (s.looked limit).rows = later.take (min limit Depot.maxCheckBatch) := rfl
  have hlong : min limit Depot.maxCheckBatch < later.length := not_le.mp (of_decide_eq_false hmore)
  have hne : (s.looked limit).rows ≠ [] := by
    rw [hrows, ← List.length_pos_iff, List.length_take]
    have := Checked.limit_ne_zero hlimit
    omega
  obtain ⟨front, last, hconcat⟩ : ∃ front last, (s.looked limit).rows = front ++ [last] :=
    (List.eq_nil_or_concat' _).resolve_left hne
  have hcut : later = front ++ [last] ++ later.drop (min limit Depot.maxCheckBatch) := by
    rw [← hconcat, hrows, List.take_append_drop]
  have hnext : s.next limit = some last := by
    rw [Checked.next, hmore, hconcat]
    simp
  obtain ⟨-, hcursor, hdisk⟩ := s.checkDiskAt_eq hlimit now atRead atWrite
  have hstep : w.step (.check limit now atRead atWrite) =
      { w with
        checked := (s.checkDiskAt limit now atRead atWrite).1
        pass := w.pass ++ (s.looked limit).rows
        unwritten := if s.writes limit now atRead atWrite then [] else w.unwritten ++
            (s.looked limit).rows } := by
    rw [step, if_neg hlimit.ne', ← hs, hmore]
    rfl
  have hslice : ∀ key ∈ (s.looked limit).rows, key ∈ later :=
    fun key hkey => List.mem_of_mem_take (hrows ▸ hkey)
  rw [hcut] at hsorted
  obtain ⟨hfront, -, hacross⟩ := List.pairwise_append.mp hsorted
  refine ⟨last, ?_⟩
  rw [hstep]
  refine
    { mem := by rw [hconcat]; simp
      nodup := by rw [hconcat]; exact hfront.imp fun h => h.ne
      ahead := fun key hkey => ⟨(mem_after.mp (hslice key hkey)).2, ?_⟩
      all := fun key hrow hahead hle => ?_
      fewer := fun key hkey => ((mem_rowKeys_check s hlimit now atRead atWrite key).mp hkey).1
      kept := fun key hrow hnot =>
        (mem_rowKeys_check s hlimit now atRead atWrite key).mpr ⟨hrow, fun h => hnot h.1.1⟩
      memory := hcursor.trans hnext
      disk := ?_
      pass := rfl
      restarts := rfl
      atEnd := rfl }
  · rw [hconcat, List.mem_append, List.mem_singleton] at hkey
    rcases hkey with hkey | rfl
    · exact ((List.pairwise_append.mp hfront).2.2 key hkey last (by simp)).le
    · exact le_rfl
  · have hmem : key ∈ later := mem_after.mpr ⟨hrow, hahead⟩
    rw [hcut, List.mem_append] at hmem
    rcases hmem with hmem | hmem
    · rwa [hconcat]
    · exact absurd hle (hacross last (by simp) key hmem).not_ge
  · cases hwrites : s.writes limit now atRead atWrite with
    | true =>
      left
      exact ⟨by rw [← hnext]; simpa [resume, hwrites] using hdisk, by simp [resume]⟩
    | false =>
      right
      exact ⟨by simpa [resume, hwrites] using hdisk, by simp [resume]⟩

/-- A call that does. -/
theorem finishes {w : Watched K} (hlimit : 0 < limit) (now : ℕ) (atRead atWrite : ChunkKey → Bool)
    (hend : (w.checked.looked limit).reachedEnd = true) :
    Resume.Finishes w.resume (w.step (.check limit now atRead atWrite)).resume
      (w.checked.looked limit).rows := by
  obtain ⟨-, hcursor, hdisk⟩ := w.checked.checkDiskAt_eq hlimit now atRead atWrite
  have hnext : w.checked.next limit = none := by rw [Checked.next, hend, if_pos rfl]
  have hwrites : w.checked.writes limit now atRead atWrite = true := by
    rw [Checked.writes, hnext, writesCursor]
    simp
  have hstep : w.step (.check limit now atRead atWrite) =
      ⟨(w.checked.checkDiskAt limit now atRead atWrite).1, [], [], [],
        some (rowKeys (w.checked.checkDiskAt limit now atRead atWrite).1.vault)⟩ := by
    rw [step, if_neg hlimit.ne', hend, if_pos rfl]
  rw [hstep]
  refine ⟨fun key hrow hahead => ?_, hcursor.trans hnext, ?_, rfl, rfl, rfl, rfl⟩
  · have hall : (w.checked.looked limit).rows =
      Pages.after (rowKeys w.checked.vault) w.checked.cursor := by
      exact List.take_of_length_le (of_decide_eq_true hend)
    rw [hall]
    exact mem_after.mpr ⟨hrow, hahead⟩
  · simpa [hwrites, hnext, resume] using hdisk

/-- **Every event is a step of a resumable pass.** -/
theorem step_resumes (w : Watched K) (event : CheckEvent) :
    Resume.Step w.resume (w.step event).resume := by
  cases event with
  | restart => exact .restart rfl
  | check limit now atRead atWrite =>
    rcases Nat.eq_zero_or_pos limit with hzero | hlimit
    · refine .stay ?_
      rw [step, if_pos hzero]
    · cases hend : (w.checked.looked limit).reachedEnd with
      | true => exact .finish _ (finishes hlimit now atRead atWrite hend)
      | false =>
        obtain ⟨last, hlooks⟩ := looks hlimit now atRead atWrite hend
        exact .look _ last hlooks

theorem start_ok (s : Checked K) : Resume.Ok (start s).resume :=
  ⟨fun _ _ => Nat.zero_le _, fun _ => Nat.zero_le _, fun _ _ => .inl (Nat.zero_le _),
    fun _ h => by cases h⟩

theorem run_ok (s : Checked K) (events : List CheckEvent) :
    Resume.Ok ((start s).run events).resume := by
  refine List.foldlRecOn (motive := fun w : Watched K => Resume.Ok w.resume) events step
    (start_ok s) ?_
  exact fun w hok event _ => hok.step (step_resumes w event)

/-- **A call looks at the next rows**, as many as it may or as there are, and goes on from the last
of them; it ends the pass where no row is left after them. -/
theorem looked_next (s : Checked K) (hlimit : 0 < limit) (now : ℕ)
    (atRead atWrite : ChunkKey → Bool) :
    (s.looked limit).rows <+: Pages.after (rowKeys s.vault) s.cursor ∧
      ((s.looked limit).reachedEnd = true ∧
          (s.looked limit).rows = Pages.after (rowKeys s.vault) s.cursor ∧
          (s.checkDiskAt limit now atRead atWrite).1.cursor = none ∨
        (s.looked limit).reachedEnd = false ∧
          (s.looked limit).rows.length = min limit Depot.maxCheckBatch ∧
          (s.checkDiskAt limit now atRead atWrite).1.cursor = (s.looked limit).rows.getLast?) := by
  obtain ⟨-, hcursor, -⟩ := s.checkDiskAt_eq hlimit now atRead atWrite
  rw [Checked.next] at hcursor
  refine ⟨List.take_prefix _ _, ?_⟩
  cases hend : (s.looked limit).reachedEnd with
  | true =>
    rw [hend, if_pos rfl] at hcursor
    exact .inl ⟨rfl, List.take_of_length_le (of_decide_eq_true hend), hcursor⟩
  | false =>
    rw [hend] at hcursor
    exact .inr ⟨rfl, List.length_take_of_le (not_le.mp (of_decide_eq_false hend)).le, hcursor⟩

/-- **The check reaches every lost blob.** After any calls and restarts, whatever the clock says: a
call looks at the next rows after its cursor, as many as its limit and the batch allow, or ends the
pass; one that ends a pass has looked, since the pass before it ended, at every row there was then;
a row is taken out exactly by a call that looks at it and misses its blob at both looks; and in a
pass a row is looked at once, and once more for each restart that came after it was looked at and
before the cursor was written. -/
theorem check_reaches_all (s : Checked K) (events : List CheckEvent) :
    let w := (start s).run events
    (∀ limit now atRead atWrite, 0 < limit →
      let slice := w.checked.looked limit
      let after := (w.checked.checkDiskAt limit now atRead atWrite).1
      let later := Pages.after (rowKeys w.checked.vault) w.checked.cursor
      (slice.rows <+: later ∧
        (slice.reachedEnd = true ∧ slice.rows = later ∧ after.cursor = none ∨
          slice.reachedEnd = false ∧ slice.rows.length = min limit Depot.maxCheckBatch ∧
            after.cursor = slice.rows.getLast?)) ∧
      (∀ rows, w.atEnd = some rows → slice.reachedEnd = true →
        ∀ key ∈ rows, key ∈ w.pass ++ slice.rows) ∧
      ∀ key ∈ rowKeys w.checked.vault, key ∉ rowKeys after.vault ↔
        key ∈ slice.rows ∧ atRead key = false ∧ atWrite key = false) ∧
    ∀ key, w.pass.count key ≤ 1 + w.restarts.countP (key ∈ ·) := by
  intro w
  have hok : Resume.Ok w.resume := run_ok s events
  refine ⟨fun limit now atRead atWrite hlimit => ?_, fun key => ?_⟩
  · refine ⟨looked_next w.checked hlimit now atRead atWrite, fun rows hrows hend key hkey => ?_,
      fun key hrow => ?_⟩
    · have hset := congrArg (Option.map fun rows => { key | key ∈ rows }) hrows
      exact hok.finish (finishes hlimit now atRead atWrite hend) hset hkey
    · rw [mem_rowKeys_check w.checked hlimit, not_and, not_not, and_assoc]
      exact ⟨fun h => h hrow, fun h _ => h⟩
  · -- The keys are compared as pairs here, and by their order in the library.
    refine le_trans (le_of_eq ?_) ((hok.count_le key).trans (le_of_eq ?_))
    · exact List.countP_congr fun _ _ => by simp
    · exact congrArg (1 + ·) (List.countP_congr fun _ _ => by simp)

/-- A vault with one row. -/
def oneRow : Checked symbolic := ⟨(Depot.new.putChunk 7 9 [1]).1, none, none⟩

/-- Its blob is gone, and one call takes it out. -/
theorem check_reaches_all_oneRow :
    Depot.chunkKey 7 9 ∉ rowKeys (oneRow.checkDiskAt 1 0 (fun _ => false) fun _ => false).1.vault := by
  obtain ⟨hcall, -⟩ := check_reaches_all oneRow []
  obtain ⟨-, -, htaken⟩ := hcall 1 0 (fun _ => false) (fun _ => false) (by decide)
  exact (htaken _ (by decide +kernel)).mpr ⟨by decide +kernel, rfl, rfl⟩

end Watched

end Itsanas
