/-
# The rolling census

`placement.rs` of `itsanas-store` and of `itsanas-net`: at every round some of the chunks with a
row are examined, the next ones after a cursor that is kept on the disk, and around past the end.
Each is judged by its recorded holders and the round's placement, and queued as short of copies or
taken off the queue.

A page is what comes next around the cursor (`censusNext_chunks`), so the pages of calls in a row
are the turns of `Lib/Carousel.lean`, whether the cursor is a row, is none, or names a chunk that
is gone; and the rate `rowsPerRound` makes the turns of one refresh period come around
(`rowsPerRound_covers`).
-/
import Itsanas.Placement
import Itsanas.References
import Itsanas.Service
import Itsanas.Shelf
import Itsanas.Lib.Pages
import Itsanas.Want
import Itsanas.Lib.Carousel

namespace Itsanas

variable {K : Crypto}

/-! ### How a chunk stands -/

/-- How one chunk stands, and who should take it next. -/
structure Evaluation where
  verdict : Target.Verdict
  want : Target.Want
  remote : ℕ
  holders : List DeviceId

/-- The eligible hosts in rendezvous order, best first. -/
def Roster.ranked (hash : SlotHash) (roster : Roster) (owner : UserId)
    (chunk : ChunkId) : List DeviceId :=
  (((roster.hosts.toList.filter fun r => r.2.1.eligible).map fun r =>
    toLex (Roster.score hash r.1 r.2.2 owner chunk, r.1)).insertionSort (· ≥ ·)).map fun r =>
      (ofLex r).2

namespace Placement

/-- The holders whose record still counts: a host may be away for as long as its window. -/
def counted (p : Placement) (stamps : List (DeviceId × ℕ)) : List Holding :=
  stamps.filterMap fun r => (p.holding r.1).filter fun holding => p.now - lostAfter holding.uptime ≤
    r.2

/-- How `chunk` stands, from its holder records. -/
def evaluateStamps (hash : SlotHash) (p : Placement) (chunk : ChunkId)
    (stamps : List (DeviceId × ℕ)) : Evaluation :=
  let nowHour := p.now / 3600
  let holdings := p.counted stamps
  let ranked := ((p.roster.ranked hash p.owner chunk).filter fun device =>
    !holdings.any fun held => held.device = device).filterMap fun device =>
      (p.roster.get device).map ofHost
  { verdict := assess holdings p.goal nowHour
    want := Target.want p.goal nowHour holdings ranked
    remote := holdings.countP fun held => !held.own && held.proven
    holders := (holdings.map Holding.device).insertionSort (· ≤ ·) }

end Placement

/-! ### A page -/

namespace Index

/-- The next `limit` chunks with a row, with their holders, and where the cursor is then. It starts
at `random` if there is no cursor. -/
def censusNext (ix : Index K) (cursor : Option ChunkId) (limit : ℕ) (random : ChunkId) :
    List (ChunkId × List (DeviceId × ℕ)) × Option ChunkId :=
  let after := cursor.getD random
  let (first, next) := ix.liveChunksPage (some after) limit
  let chunks :=
    if next.isNone ∧ first.length < limit then
      -- around: from the lowest id up to the cursor, which the first part did not cover
      first ++ (ix.liveChunksPage none (limit - first.length)).1.takeWhile (· ≤ after)
    else first
  (chunks.map fun chunk => (chunk, ix.ledger.holdersOf chunk), chunks.getLast?.or cursor)

/-- The chunks with a row, in order. -/
def rows (ix : Index K) : List ChunkId := ix.tree.chunkRefs.toList.map Prod.fst

theorem pairwise_rows (ix : Index K) : ix.rows.Pairwise (· < ·) := by
  unfold rows
  rw [List.pairwise_map]
  exact (Std.ExtTreeMap.ordered_keys_toList (t := ix.tree.chunkRefs)).imp fun h =>
    compare_lt_iff_lt.mp h

theorem liveChunksPage_eq (ix : Index K) (after : Option ChunkId) (limit : ℕ) :
    ix.liveChunksPage after limit = Pages.page ix.rows limit after := rfl

/-- Of the first rows, those up to the cursor. -/
theorem takeWhile_take (ix : Index K) (after : ChunkId) (limit : ℕ) :
    (ix.liveChunksPage none limit).1.takeWhile (· ≤ after) =
      (Carousel.upTo ix.rows after).take limit := by
  have hsorted := ix.pairwise_rows
  have hall : Pages.after ix.rows none = ix.rows := List.filter_eq_self.mpr fun _ _ => rfl
  have hclosed : (ix.rows.take limit).Pairwise fun a b => decide (b ≤ after) = true →
      decide (a ≤ after) = true :=
    (hsorted.sublist (List.take_sublist _ _)).imp fun hlt hle => by
      simp only [decide_eq_true_eq] at hle ⊢
      exact hlt.le.trans hle
  rw [liveChunksPage_eq, Pages.page, hall]
  refine (Pages.takeWhile_eq_filter hclosed).trans ?_
  conv_lhs => rw [← Carousel.upTo_append_after hsorted after]
  rw [List.take_append, List.filter_append, List.filter_eq_self.mpr, List.filter_eq_nil_iff.mpr,
    List.append_nil]
  · intro a ha
    have hlt := (List.mem_filter.mp (List.mem_of_mem_take ha)).2
    simpa using hlt
  · exact fun a ha => (List.mem_filter.mp (List.mem_of_mem_take ha)).2

/-- **A page is what comes next around the cursor.** -/
theorem censusNext_chunks (ix : Index K) (cursor : Option ChunkId) (limit : ℕ) (random : ChunkId) :
    (ix.censusNext cursor limit random).1.map Prod.fst =
        (Carousel.around ix.rows (cursor.getD random)).take limit ∧
      (ix.censusNext cursor limit random).2 =
        ((Carousel.around ix.rows (cursor.getD random)).take limit).getLast?.or cursor := by
  set after := cursor.getD random with hcursor
  have hchunks : (if (ix.liveChunksPage (some after) limit).2.isNone ∧
        (ix.liveChunksPage (some after) limit).1.length < limit then
      (ix.liveChunksPage (some after) limit).1 ++
        (ix.liveChunksPage none
          (limit - (ix.liveChunksPage (some after) limit).1.length)).1.takeWhile (· ≤ after)
      else (ix.liveChunksPage (some after) limit).1) = (Carousel.around ix.rows after).take limit := by
    rw [takeWhile_take, liveChunksPage_eq, Pages.page, Carousel.around, List.take_append]
    dsimp only
    by_cases hshort : (Pages.after ix.rows (some after)).length < limit
    · have hwhole : (Pages.after ix.rows (some after)).take limit = Pages.after ix.rows (some after) :=
        List.take_of_length_le hshort.le
      rw [hwhole, if_neg hshort.ne, if_pos ⟨rfl, hshort⟩]
    · have hfull : ((Pages.after ix.rows (some after)).take limit).length = limit := by
        rw [List.length_take]
        omega
      rw [if_neg (fun h => absurd h.2 (by omega)), Nat.sub_eq_zero_of_le (by omega), List.take_zero,
        List.append_nil]
  constructor
  · rw [← hchunks, censusNext]
    dsimp only
    rw [List.map_map, ← hcursor]
    exact List.map_id _
  · rw [← hchunks, censusNext]

end Index

/-! ### Calls in a row -/

/-- One call: the index as it is then, the row count and the chunk drawn. -/
structure CensusCall (K : Crypto) where
  index : Index K
  limit : ℕ
  random : ChunkId

/-- The pages of calls in a row. -/
def censusPages : Option ChunkId → List (CensusCall K) → List (List ChunkId)
  | _, [] => []
  | cursor, call :: calls =>
    let (page, cursor) := call.index.censusNext cursor call.limit call.random
    page.map Prod.fst :: censusPages cursor calls

/-- **The pages of calls in a row are the turns of the rows.** -/
theorem censusPages_eq_turns {rows : List ChunkId} :
    ∀ (calls : List (CensusCall K)) (cursor : Option ChunkId),
      (∀ call ∈ calls, call.index.rows = rows) →
      (∀ call ∈ calls, 0 < call.limit) → ∃ start, (∀ at' ∈ cursor, start = at') ∧
        censusPages cursor calls =
          Carousel.turns (calls.map CensusCall.limit) (Carousel.around rows start)
  | [], cursor, _, _ =>
      ⟨cursor.getD 0, fun at' hat => by rw [Option.mem_def.mp hat, Option.getD_some], rfl⟩
  | call :: calls, cursor, hrows, hpos => by
    refine ⟨cursor.getD call.random,
      fun at' hat => by rw [Option.mem_def.mp hat, Option.getD_some], ?_⟩
    have hsorted : rows.Pairwise (· < ·) := hrows call (by simp) ▸ call.index.pairwise_rows
    obtain ⟨hpage, hcursor⟩ := call.index.censusNext_chunks cursor call.limit call.random
    rw [hrows call (by simp)] at hpage hcursor
    obtain ⟨start, hstart, hturns⟩ :=
      censusPages_eq_turns calls (call.index.censusNext cursor call.limit call.random).2
      (fun c hc => hrows c (by simp [hc])) (fun c hc => hpos c (by simp [hc]))
    rw [censusPages, List.map_cons, Carousel.turns]
    dsimp only
    rw [hpage, hturns]
    congr 1
    cases hlast : ((Carousel.around rows (cursor.getD call.random)).take call.limit).getLast? with
    | some last =>
      -- The cursor is the last chunk of the page.
      rw [hlast, Option.some_or] at hcursor
      rw [hstart last (hcursor ▸ rfl), Carousel.around_getLast hsorted hlast]
    | none =>
      -- A page is empty only where there are no rows.
      have hempty : (Carousel.around rows (cursor.getD call.random)).take call.limit = [] :=
        List.getLast?_eq_none_iff.mp hlast
      have hnone : Carousel.around rows (cursor.getD call.random) = [] := by
        rcases List.take_eq_nil_iff.mp hempty with hzero | hnil
        · exact absurd hzero (hpos call (by simp)).ne'
        · exact hnil
      have hrowsnil : rows = [] := by
        rw [← List.length_eq_zero_iff, ← Carousel.length_around hsorted (cursor.getD call.random),
          hnone]
        rfl
      rw [hrowsnil]
      simp [Carousel.around, Carousel.upTo, Pages.after]

/-! ### How many rows a round -/

/-- How many rows a round examines, so that a pass takes a refresh period when a round comes every
`interval` seconds. -/
def rowsPerRound (rows interval : ℕ) : ℕ :=
  if rows = 0 then 0
  else
    let needed := (rows * max interval 1 + (Ledger.refreshAfter - 1)) / Ledger.refreshAfter
    -- a `usize` is 64 bits wide
    min (min (max needed 1) rows) u64Max

theorem rowsPerRound_covers {rows interval : ℕ} (hrows : rows ≤ u64Max) (hinterval : 0 < interval) :
    rows ≤ (Ledger.refreshAfter / interval + 1) * rowsPerRound rows interval := by
  by_cases hzero : rows = 0
  · rw [hzero]
    exact Nat.zero_le _
  have hperiod : 0 < Ledger.refreshAfter := by decide
  generalize hneeded : (rows * interval + (Ledger.refreshAfter - 1)) / Ledger.refreshAfter = needed
  have hrounded : rowsPerRound rows interval = min (max needed 1) rows := by
    rw [rowsPerRound, if_neg hzero, max_eq_left (Nat.succ_le_of_lt hinterval), hneeded]
    exact min_eq_left ((min_le_right _ _).trans hrows)
  rw [hrounded]
  rcases le_total rows (max needed 1) with hall | hsome
  · rw [min_eq_right hall]
    exact Nat.le_mul_of_pos_left _ (Nat.succ_pos _)
  · rw [min_eq_left hsome]
    have hup : rows * interval ≤ needed * Ledger.refreshAfter := by
      have := Nat.div_add_mod (rows * interval + (Ledger.refreshAfter - 1)) Ledger.refreshAfter
      have := Nat.mod_lt (rows * interval + (Ledger.refreshAfter - 1)) hperiod
      rw [hneeded] at *
      rw [Nat.mul_comm needed]
      omega
    have hround : Ledger.refreshAfter ≤ (Ledger.refreshAfter / interval + 1) * interval :=
      (Nat.lt_div_mul_add hinterval).le.trans_eq (by rw [Nat.add_mul, Nat.one_mul])
    have hcover : rows * interval ≤ (Ledger.refreshAfter / interval + 1) * needed * interval :=
      calc rows * interval ≤ needed * Ledger.refreshAfter := hup
        _ ≤ needed * ((Ledger.refreshAfter / interval + 1) * interval) := Nat.mul_le_mul_left _ hround
        _ = (Ledger.refreshAfter / interval + 1) * needed * interval := by ring
    exact (Nat.le_of_mul_le_mul_right hcover hinterval).trans (Nat.mul_le_mul_left _ (le_max_left _ _))

/-! ### The queue -/

/-- An index, and how far the census is. -/
structure Censused (K : Crypto) where
  index : Index K
  cursor : Option ChunkId

/-- What one page found. -/
structure CensusReport where
  examined : ℕ
  short : ℕ
  settled : ℕ
  unreachable : ℕ
  deriving DecidableEq

namespace Placement
variable (hash : SlotHash) (p : Placement)

/-- Examine the next `rows` chunks, and queue or settle each. -/
def census (s : Censused K) (rows : ℕ) (random : ChunkId) : Censused K × CensusReport :=
  let (page, cursor) := s.index.censusNext s.cursor rows random
  let judged := page.map fun r => (r.1, p.evaluateStamps hash r.1 r.2)
  let short := judged.filter fun r => !r.2.verdict.satisfied
  let settled := judged.filter fun r => r.2.verdict.satisfied
  let tree := (s.index.tree.enqueueShort (short.map Prod.fst) p.now).settleShort (settled.map Prod.fst)
  ({ index := { s.index with tree := tree }, cursor := cursor },
    { examined := page.length
      short := short.length
      settled := settled.length
      unreachable := short.countP fun r => !r.2.verdict.available && !r.2.want.satisfied })

/-- Whether a chunk is satisfied, in the eyes of the round. -/
def satisfied (ix : Index K) (chunk : ChunkId) : Bool :=
  (p.evaluateStamps hash chunk (ix.ledger.holdersOf chunk)).verdict.satisfied

/-- The censuses of calls in a row under one placement, and their pages. -/
def censuses : Censused K → List (ℕ × ChunkId) → Censused K × List (List ChunkId)
  | s, [] => (s, [])
  | s, (rows, random) :: calls =>
    let rest := censuses (p.census hash s rows random).1 calls
    (rest.1, (s.index.censusNext s.cursor rows random).1.map Prod.fst :: rest.2)

end Placement

namespace FileTables

theorem enqueueShort_chunkRefs (t : FileTables) (chunks : List ChunkId) (now : ℕ) :
    (t.enqueueShort chunks now).chunkRefs = t.chunkRefs ∧
      (t.enqueueShort chunks now).queueArmed = t.queueArmed := by
  refine List.foldlRecOn
    (motive := fun t' : FileTables => t'.chunkRefs = t.chunkRefs ∧ t'.queueArmed = t.queueArmed)
    chunks _ ⟨rfl, rfl⟩ fun t' h c _ => ?_
  split_ifs
  · exact h
  · exact h

theorem isSome_enqueueShort (chunks : List ChunkId) (now : ℕ) (c : ChunkId) :
    ∀ {t : FileTables}, t.queueArmed = true →
      (((t.enqueueShort chunks now).shortSince[c]?).isSome = true ↔
      (t.shortSince[c]?).isSome = true ∨ c ∈ chunks ∧ (t.chunkRefs[c]?).isSome = true) := by
  induction chunks with
  | nil => intro t _; simp [enqueueShort]
  | cons chunk chunks ih =>
    intro t harmed
    rw [enqueueShort, List.foldl_cons, ← enqueueShort]
    split_ifs with hskip
    · -- There is no row of it.
      have hnone : t.chunkRefs[chunk]? = none := by simpa [harmed] using hskip
      rw [ih harmed]
      by_cases heq : c = chunk
      · simp [heq, hnone]
      · simp [heq]
    · have hrow : (t.chunkRefs[chunk]?).isSome = true := by
        simpa [harmed, Option.isSome_iff_ne_none] using hskip
      rw [ih (t := { t with shortSince := insertNew t.queueArmed t.shortSince chunk now }) harmed]
      rw [getElem?_insertNew]
      by_cases heq : c = chunk
      · subst heq
        by_cases hqueued : t.shortSince[c]? = none
        · simp [harmed, hqueued, hrow]
        · have hsome : (t.shortSince[c]?).isSome = true := Option.isSome_iff_ne_none.mpr hqueued
          rw [if_neg (fun h => hqueued h.2.2)]
          simp only [hsome, true_or]
      · simp [Ne.symm heq, heq]

end FileTables

section
variable (hash : SlotHash) (p : Placement)

theorem mem_censusNext (ix : Index K) (cursor : Option ChunkId) (limit : ℕ) (random : ChunkId)
    {r : ChunkId × List (DeviceId × ℕ)} (h : r ∈ (ix.censusNext cursor limit random).1) :
    r.1 ∈ ix.rows ∧ r.2 = ix.ledger.holdersOf r.1 := by
  constructor
  · have hmem : r.1 ∈ (ix.censusNext cursor limit random).1.map Prod.fst := List.mem_map_of_mem h
    rw [(ix.censusNext_chunks cursor limit random).1] at hmem
    exact (Carousel.mem_around _ _ _).mp (List.mem_of_mem_take hmem)
  · obtain ⟨c, -, rfl⟩ := List.mem_map.mp h
    rfl

theorem mem_rows (ix : Index K) (c : ChunkId) : c ∈ ix.rows ↔ (ix.tree.chunkRefs[c]?).isSome = true :=
  Table.mem_keys

/-- **One census queues what it finds short, and takes off what it finds satisfied**; the rest of
the queue stays. -/
theorem census_isSome {s : Censused K} (harmed : s.index.tree.queueArmed = true) (rows : ℕ)
    (random c : ChunkId) :
    (((p.census hash s rows random).1.index.tree.shortSince[c]?).isSome = true ↔
      if c ∈ (s.index.censusNext s.cursor rows random).1.map Prod.fst then
        p.satisfied hash s.index c = false
      else (s.index.tree.shortSince[c]?).isSome = true) := by
  set page := (s.index.censusNext s.cursor rows random).1 with hpage
  have hjudged : ∀ b : Bool, c ∈
      ((page.map fun r => (r.1, p.evaluateStamps hash r.1 r.2)).filter fun r =>
      r.2.verdict.satisfied == b).map Prod.fst ↔ c ∈ page.map Prod.fst ∧
          p.satisfied hash s.index c = b := by
    intro b
    simp only [List.mem_map, List.mem_filter, beq_iff_eq]
    constructor
    · rintro ⟨-, ⟨⟨r, hr, rfl⟩, hb⟩, rfl⟩
      refine ⟨⟨r, hr, rfl⟩, ?_⟩
      rwa [(mem_censusNext s.index s.cursor rows random hr).2] at hb
    · rintro ⟨⟨r, hr, rfl⟩, hb⟩
      refine ⟨_, ⟨⟨r, hr, rfl⟩, ?_⟩, rfl⟩
      rwa [(mem_censusNext s.index s.cursor rows random hr).2]
  have hshort := hjudged false
  have hsettled := hjudged true
  simp only [beq_false, beq_true] at hshort hsettled
  have hqueue : (p.census hash s rows random).1.index.tree.shortSince[c]? =
      if c ∈ page.map Prod.fst ∧ p.satisfied hash s.index c = true then none
      else (s.index.tree.enqueueShort
          (((page.map fun r => (r.1, p.evaluateStamps hash r.1 r.2)).filter fun r =>
        !r.2.verdict.satisfied).map Prod.fst) p.now).shortSince[c]? := by
    rw [← if_congr hsettled rfl rfl, ← Table.getElem?_foldl_erase]
    rfl
  rw [hqueue]
  by_cases hin : c ∈ page.map Prod.fst
  · rw [if_pos hin]
    cases hsat : p.satisfied hash s.index c with
    | true => simp [hin]
    | false =>
      rw [if_neg (by simp), FileTables.isSome_enqueueShort _ _ _ harmed, hshort]
      obtain ⟨r, hr, hrc⟩ := List.mem_map.mp hin
      have hrow := (mem_rows s.index c).mp (hrc ▸ (mem_censusNext s.index s.cursor rows random hr).1)
      simp [hin, hsat, hrow]
  · rw [if_neg (fun h => hin h.1), if_neg hin, FileTables.isSome_enqueueShort _ _ _ harmed, hshort]
    simp [hin]

/-- A census changes nothing of the index but the queue. -/
theorem census_same (s : Censused K) (rows : ℕ) (random : ChunkId) :
    (p.census hash s rows random).1.index.ledger = s.index.ledger ∧
      (p.census hash s rows random).1.index.tree.chunkRefs = s.index.tree.chunkRefs ∧
      (p.census hash s rows random).1.index.tree.queueArmed = s.index.tree.queueArmed := by
  obtain ⟨hrefs, harmed⟩ := FileTables.enqueueShort_chunkRefs s.index.tree
    (((s.index.censusNext s.cursor rows random).1.map fun r =>
      (r.1, p.evaluateStamps hash r.1 r.2)).filter
      (fun r => !r.2.verdict.satisfied) |>.map Prod.fst) p.now
  exact ⟨rfl, hrefs, harmed⟩

theorem mem_rows_of_censuses {c : ChunkId} :
    ∀ (calls : List (ℕ × ChunkId)) {s : Censused K} {page : List ChunkId},
    page ∈ (p.censuses hash s calls).2 → c ∈ page → c ∈ s.index.rows
  | [], _, _, hpage, _ => by simp [Placement.censuses] at hpage
  | (rows, random) :: calls, s, page, hpage, hc => by
    rcases List.mem_cons.mp hpage with rfl | hpage
    · obtain ⟨r, hr, rfl⟩ := List.mem_map.mp hc
      exact (mem_censusNext s.index s.cursor rows random hr).1
    · have hrow := mem_rows_of_censuses calls hpage hc
      rwa [mem_rows, (census_same hash p s rows random).2.1, ← mem_rows] at hrow

/-- After calls in a row, what was examined is queued if it is not satisfied, and the rest as it
was. -/
theorem censuses_isSome (c : ChunkId) : ∀ (calls : List (ℕ × ChunkId)) {s : Censused K},
    s.index.tree.queueArmed = true →
      (((p.censuses hash s calls).1.index.tree.shortSince[c]?).isSome = true ↔
        if ∃ page ∈ (p.censuses hash s calls).2, c ∈ page then p.satisfied hash s.index c = false
        else (s.index.tree.shortSince[c]?).isSome = true)
  | [], s, _ => by simp [Placement.censuses]
  | (rows, random) :: calls, s, harmed => by
    obtain ⟨hledger, -, harmed'⟩ := census_same hash p s rows random
    have hsat : p.satisfied hash (p.census hash s rows random).1.index c =
        p.satisfied hash s.index c := by
      rw [Placement.satisfied, hledger, Placement.satisfied]
    have ih := censuses_isSome c calls (s := (p.census hash s rows random).1) (harmed'.trans harmed)
    rw [hsat, census_isSome hash p harmed rows random c] at ih
    rw [Placement.censuses]
    dsimp only
    rw [ih]
    by_cases hlater : ∃ page ∈ (p.censuses hash (p.census hash s rows random).1 calls).2, c ∈ page
    · obtain ⟨page, hpage, hc⟩ := hlater
      rw [if_pos ⟨page, hpage, hc⟩, if_pos ⟨page, List.mem_cons_of_mem _ hpage, hc⟩]
    · rw [if_neg hlater]
      by_cases hnow : c ∈ (s.index.censusNext s.cursor rows random).1.map Prod.fst
      · rw [if_pos hnow, if_pos ⟨_, List.mem_cons_self, hnow⟩]
      · rw [if_neg hnow, if_neg]
        rintro ⟨page, hpage, hc⟩
        rcases List.mem_cons.mp hpage with rfl | hpage
        · exact hnow hc
        · exact hlater ⟨page, hpage, hc⟩

end

/-- **The census misses no chunk.** While the set of rows stays the same, whatever else happens to
the index and wherever the cursor is: no page has a chunk twice; calls in a row whose row counts
add up to the number of rows examine every row, and so do the calls of a refresh period at the
rate for it. And when calls in a row under one placement have examined all of them, the queue, if
it is armed, has exactly those that are not satisfied. -/
theorem census_misses_none (hash : SlotHash) :
    (∀ (rows : List ChunkId) (cursor : Option ChunkId) (calls : List (CensusCall K)),
      (∀ call ∈ calls, call.index.rows = rows) → (∀ call ∈ calls, 0 < call.limit) →
      (∀ page ∈ censusPages cursor calls, page.Nodup) ∧
      (rows.length ≤ (calls.map CensusCall.limit).sum →
        ∀ c ∈ rows, ∃ page ∈ censusPages cursor calls, c ∈ page) ∧
      ∀ interval, 0 < interval → rows.length ≤ u64Max →
        (∀ call ∈ calls, call.limit = rowsPerRound rows.length interval) →
        Ledger.refreshAfter / interval + 1 ≤ calls.length →
        ∀ c ∈ rows, ∃ page ∈ censusPages cursor calls, c ∈ page) ∧
    ∀ (p : Placement) (s : Censused K) (ops : List TreeOp) (calls : List (ℕ × ChunkId)),
      s.index.tree = TreeOp.run .new ops → s.index.tree.queueArmed = true →
      (∀ c ∈ s.index.rows, ∃ page ∈ (p.censuses hash s calls).2, c ∈ page) →
      ∀ c, (((p.censuses hash s calls).1.index.tree.shortSince[c]?).isSome = true ↔
        c ∈ s.index.rows ∧ p.satisfied hash s.index c = false) := by
  refine ⟨fun rows cursor calls hrows hpos => ?_, fun p s ops calls htree harmed hall c => ?_⟩
  · obtain ⟨start, -, hpages⟩ := censusPages_eq_turns calls cursor hrows hpos
    rcases calls.eq_nil_or_concat' with hnil | ⟨earlier, last, hconcat⟩
    · subst hnil
      refine ⟨by
        simp [censusPages], fun hsum c hc => ?_, fun interval _ _ _ hcalls => by simp at hcalls⟩
      rw [List.map_nil, List.sum_nil, Nat.le_zero, List.length_eq_zero_iff] at hsum
      simp [hsum] at hc
    have hsorted : rows.Pairwise (· < ·) := hrows last (by simp [hconcat]) ▸ last.index.pairwise_rows
    have hcovers : rows.length ≤ (calls.map CensusCall.limit).sum →
        ∀ c ∈ rows, ∃ page ∈ censusPages cursor calls, c ∈ page := by
      intro hsum c hc
      rw [hpages]
      refine Carousel.mem_turns _ ?_
      rw [List.take_of_length_le (by rwa [Carousel.length_around hsorted])]
      exact (Carousel.mem_around _ _ _).mpr hc
    refine ⟨fun page hpage => ?_, hcovers, fun interval hinterval hsize hrate hcalls => hcovers ?_⟩
    · rw [hpages] at hpage
      exact Carousel.nodup_turns (Carousel.nodup_around hsorted start) hpage
    · have hsum : (calls.map CensusCall.limit).sum =
        calls.length * rowsPerRound rows.length interval := by
        rw [List.map_congr_left hrate]
        simp
      rw [hsum]
      exact (rowsPerRound_covers hsize hinterval).trans (Nat.mul_le_mul_right _ hcalls)
  · rw [censuses_isSome hash p c calls harmed]
    by_cases hrow : c ∈ s.index.rows
    · rw [if_pos (hall c hrow)]
      exact (and_iff_right hrow).symm
    · have hnever : ¬∃ page ∈ (p.censuses hash s calls).2, c ∈ page := fun ⟨_, hpage, hc⟩ =>
        hrow (mem_rows_of_censuses hash p calls hpage hc)
      -- What is queued has a row.
      have hidle : ¬(s.index.tree.shortSince[c]?).isSome = true := fun hqueued =>
        hrow ((mem_rows s.index c).mpr ((htree ▸ TreeOp.run_accurate ops).short c hqueued))
      rw [if_neg hnever]
      exact iff_of_false hidle fun h => hrow h.1

/-- A file of two chunks comes to a store whose placement is measured. -/
def twoChunks : List TreeOp :=
  [.setPlacementMeasured true, .putFile "a".toList ⟨2, 0, 0, [5, 6], .new, 1⟩ 0]

/-- Nothing of it has been examined. -/
def unexamined : Censused symbolic := ⟨{ Index.new with tree := TreeOp.run .new twoChunks }, none⟩

/-- The round of a device that knows no host. -/
def noHosts : Placement := ⟨⟨∅, fun _ _ h => (by simp at h)⟩, [1], ∅, [], 0, 1, 7, .standard, 0⟩

theorem census_misses_none_unexamined :
    (∀ c ∈ [5, 6], ∃ page ∈ censusPages none [⟨unexamined.index, 1, 5⟩, ⟨unexamined.index, 1, 0⟩],
      c ∈ page) ∧
    (((noHosts.censuses Fleet.twoTiers unexamined
      [(2, 5)]).1.index.tree.shortSince[(5 : ChunkId)]?).isSome = true ↔
      (5 : ChunkId) ∈ unexamined.index.rows ∧ noHosts.satisfied Fleet.twoTiers unexamined.index 5 =
        false) := by
  obtain ⟨hpages, hqueue⟩ := census_misses_none (K := symbolic) Fleet.twoTiers
  have hrows : unexamined.index.rows = [5, 6] := by decide +kernel
  have hexamined : (noHosts.censuses Fleet.twoTiers unexamined [(2, 5)]).2 =
    [[6, 5]] := by decide +kernel
  refine ⟨(hpages _ none _ (by simp [hrows]) (by decide)).2.1 (by decide),
    hqueue _ _ _ _ rfl (by decide +kernel) ?_ 5⟩
  simp [hrows, hexamined]

end Itsanas
