/-
# What is missing from the disk

Of `itsanas-store`, `index.rs` and `store.rs`: the queue of chunks that have a row and whose bytes
are not on this disk. A slice of the rows is looked at, drawn at random (`missing_locally`) or in
order from a cursor the daemon keeps (`check_disk`). What is missing is queued, what is there again
is taken off.

A round with a peer then fetches back what that peer is recorded as holding (`repair` of
`itsanas-net/src/session.rs`).

Between the slices of a pass chunks arrive, blobs are lost and the file tables change. A pass finds
what was missing all the time, and takes off what was there (`DiskPass.pass_settles`). Whatever
peers answer, a repair stores nothing but what it asked for, forgets no loss, and is told a
falsehood no more often than there are records (`repairs_mend`).
-/
import Itsanas.Contents
import Itsanas.Holders
import Itsanas.Lib.Pages
import Itsanas.Local
import Itsanas.Rounds
import Itsanas.Vault
import Itsanas.Symbolic

namespace Itsanas

variable {K : Crypto}

/-! ### Reading from a cursor on -/

/-- Add rows that are not there yet, until there are `limit`. -/
def takeNew (limit : ℕ) : List ChunkId → List ChunkId → List ChunkId
  | [], out => out
  | c :: rest, out =>
    let out := if c ∈ out then out else out ++ [c]
    if out.length = limit then out else takeNew limit rest out

/-- Up to `limit` rows from the cursor on, and then from the top. -/
def fromCursor (rows : List ChunkId) (cursor : ChunkId) (limit : ℕ) : List ChunkId :=
  if limit = 0 then [] else takeNew limit (rows.filter (cursor ≤ ·) ++ rows) []

/-! ### The queue -/

namespace Index

/-- A page of the chunks with a row, in order, and where the next one starts. -/
def liveChunksPage (ix : Index K) (after : Option ChunkId) (limit : ℕ) :
    List ChunkId × Option ChunkId :=
  let page := ((ix.tree.chunkRefs.toList.map Prod.fst).filter fun c => after.all (· < c)).take limit
  (page, if page.length = limit then page.getLast? else none)

/-- Up to `limit` chunks some file lists, from the cursor on, wrapping. -/
def liveChunksFrom (ix : Index K) (cursor : ChunkId) (limit : ℕ) : List ChunkId :=
  fromCursor ((ix.tree.chunkRefs.toList.filter fun r => 0 < r.2).map Prod.fst) cursor limit

/-- Up to `limit` known losses, from the cursor on, wrapping. -/
def knownLossesFrom (ix : Index K) (cursor : ChunkId) (limit : ℕ) : List ChunkId :=
  fromCursor (ix.losses.toList.map Prod.fst) cursor limit

/-- Queue what is missing, and take off what is present. -/
def settleLosses (ix : Index K) (present missing : List ChunkId) (now : ℕ) : Index K :=
  let recovered := present.filter fun c => (ix.losses[c]?).isSome
  if recovered = [] ∧ missing = [] then ix
  else
    { ix with
      losses := missing.foldl (fun t c => if (t[c]?).isNone then t.insert c now else t)
        (recovered.foldl (fun t c => t.erase c) ix.losses) }

theorem isSome_foldl_insertNew (now : ℕ) (c : ChunkId) :
    ∀ (missing : List ChunkId) (t : Table ChunkId ℕ),
    ((missing.foldl (fun t c => if (t[c]?).isNone then t.insert c now else t) t)[c]?).isSome = true ↔
      c ∈ missing ∨ (t[c]?).isSome = true
  | [], t => by simp
  | m :: missing, t => by
    have hone : (((if (t[m]?).isNone then t.insert m now else t))[c]?).isSome = true ↔
        c = m ∨ (t[c]?).isSome = true := by
      split_ifs with hnone
      · rw [Table.getElem?_insert']
        by_cases hm : m = c
        · simp [hm]
        · simp [hm, Ne.symm hm]
      · refine ⟨.inr, fun h => h.elim (fun h => ?_) id⟩
        rw [h]
        simpa [Option.isSome_iff_ne_none] using hnone
    rw [List.foldl_cons, isSome_foldl_insertNew now c missing, hone, List.mem_cons]
    tauto

/-- What is missing is queued, and of the rest what was and is not present. -/
theorem isSome_settleLosses (ix : Index K) (present missing : List ChunkId) (now : ℕ) (c : ChunkId) :
    ((ix.settleLosses present missing now).losses[c]?).isSome = true ↔
      c ∈ missing ∨ (ix.losses[c]?).isSome = true ∧ c ∉ present := by
  have hrecovered : c ∈ present.filter (fun c => (ix.losses[c]?).isSome) ↔
      c ∈ present ∧ (ix.losses[c]?).isSome = true := List.mem_filter
  unfold settleLosses
  dsimp only
  split_ifs with hnone
  · rw [hnone.1] at hrecovered
    simp only [hnone.2, List.not_mem_nil, false_iff, false_or, not_and] at hrecovered ⊢
    exact ⟨fun h => ⟨h, fun hp => hrecovered hp h⟩, And.left⟩
  · rw [isSome_foldl_insertNew, Table.getElem?_foldl_erase]
    refine or_congr_right ?_
    split_ifs with hmem
    · simp [(hrecovered.mp hmem).1]
    · exact ⟨fun h => ⟨h, fun hp => hmem (hrecovered.mpr ⟨hp, h⟩)⟩, And.left⟩

end Index

namespace Store

/-- Look for the chunks of a slice, and settle what was found. -/
def settle (st : Store K) (slice : List ChunkId) (now : ℕ) : Store K :=
  { st with
    index := st.index.settleLosses (slice.filter st.hasChunk) (slice.filter fun c => !st.hasChunk c)
      now }

/-- Look for some chunks the files list, from the cursor on. Says which are missing. -/
def missingLocally (st : Store K) (cursor : ChunkId) (scan now : ℕ) : Store K × List ChunkId :=
  let slice := st.index.liveChunksFrom cursor scan
  (st.settle slice now, slice.filter fun c => !st.hasChunk c)

def maxCheckBatch : ℕ := 4096

/-- Look for the chunks of the next rows. Says how many are missing, and where to go on. -/
def checkDisk (st : Store K) (after : Option ChunkId) (limit now : ℕ) : Store K × ℕ × Option ChunkId :=
  let (page, next) := st.index.liveChunksPage after (min limit maxCheckBatch)
  (st.settle page now, (page.filter fun c => !st.hasChunk c).length, next)

theorem isSome_putBlob (blobs : Table ChunkId Bytes) (address : ChunkId) (sealed : Bytes) :
    ((putBlob blobs address sealed).1[address]?).isSome = true := by
  unfold putBlob
  split_ifs with h
  · exact h
  · simp

/-- Sealed bytes from elsewhere are refused, or are what they are said to be and put. -/
theorem acceptChunk_cases (st : Store K) (address : ChunkId) (sealed : Bytes) :
    st.acceptChunk address sealed = (st, false) ∨
      ∃ x, K.openChunk address sealed = some x ∧ K.chunkId x = address ∧
        st.acceptChunk address sealed =
        (st.withHere (putBlob st.blobs address sealed).1 (st.index.losses.erase address), true) := by
  unfold acceptChunk
  split_ifs with hlen
  · exact .inl rfl
  · cases hopen : K.openChunk address sealed with
    | none => exact .inl rfl
    | some x =>
      dsimp only
      split_ifs with hid
      · exact .inl rfl
      · exact .inr ⟨x, rfl, not_not.mp hid, rfl⟩

/-- `c` is queued as lost. -/
def Lost (st : Store K) (c : ChunkId) : Prop := (st.index.losses[c]?).isSome = true

/-- After a slice was settled, its chunks are queued if they are missing. -/
theorem lost_settle (st : Store K) (slice : List ChunkId) (now : ℕ) (c : ChunkId) :
    (st.settle slice now).Lost c ↔ if c ∈ slice then st.hasChunk c = false else st.Lost c := by
  refine (st.index.isSome_settleLosses _ _ now c).trans ?_
  rw [List.mem_filter, List.mem_filter]
  split_ifs with hmem
  · cases st.hasChunk c <;> simp [hmem]
  · simp [hmem, Lost]

end Store

/-! ### A pass -/

/-- A store while the daemon goes over its rows, and how far it has come. -/
structure DiskPass (K : Crypto) where
  store : Store K
  cursor : Option ChunkId

/-- A slice is checked, sealed bytes come from a peer, a write puts bytes, the disk loses some, or
the file tables change. -/
inductive ShelfEvent
  | check (batch now : ℕ)
  | accept (address : ChunkId) (sealed : Bytes)
  | put (address : ChunkId) (sealed : Bytes)
  | fault (address : ChunkId)
  | files (tree : FileTables)

namespace DiskPass

def step (s : DiskPass K) : ShelfEvent → DiskPass K
  | .check batch now =>
    { store := (s.store.checkDisk s.cursor batch now).1, cursor :=
      (s.store.checkDisk s.cursor batch now).2.2 }
  | .accept address sealed => { s with store := (s.store.acceptChunk address sealed).1 }
  | .put address sealed =>
      { s with store := { s.store with blobs := (putBlob s.store.blobs address sealed).1 } }
  | .fault address => { s with store := { s.store with blobs := s.store.blobs.erase address } }
  | .files tree => { s with store := { s.store with index := { s.store.index with tree := tree } } }

def run (s : DiskPass K) (events : List ShelfEvent) : DiskPass K := events.foldl step s

/-- The events up to the first check that has nothing to go on from; no check is of no rows. -/
def Pass : DiskPass K → List ShelfEvent → Prop
  | _, [] => False
  | s, .check batch now :: rest =>
    0 < batch ∧ if (s.step (.check batch now)).cursor = none then rest =
      [] else Pass (s.step (.check batch now)) rest
  | s, event :: rest => Pass (s.step event) rest

/-- `p` holds of the store before every event and in the end. -/
def Throughout (p : Store K → Prop) : DiskPass K → List ShelfEvent → Prop
  | s, [] => p s.store
  | s, event :: rest => p s.store ∧ Throughout p (s.step event) rest

theorem Throughout.start {p : Store K → Prop} {s : DiskPass K} : ∀ {events : List ShelfEvent},
    Throughout p s events → p s.store
  | [], h => h
  | _ :: _, h => h.1

/-- There is a row for `c`, and whether it is on the disk is `there`. -/
def Stays (c : ChunkId) (there : Bool) (st : Store K) : Prop :=
  (st.tree.chunkRefs[c]?).isSome = true ∧ st.hasChunk c = there

/-- Once the cursor has passed `c`, it is queued if it is not there. -/
def Settled (c : ChunkId) (there : Bool) (s : DiskPass K) : Prop :=
  s.cursor.any (c ≤ ·) = true → (s.store.Lost c ↔ there = false)

section
variable {s : DiskPass K} {c : ChunkId} {there : Bool}

/-- A check settles what it has come past, and at the end everything. -/
theorem Settled.check (h : Settled c there s) (hstays : Stays c there s.store) {batch : ℕ}
    (hbatch : 0 < batch) (now : ℕ) : let s' := s.step (.check batch now)
    Settled c there s' ∧ (s'.cursor = none → (s'.store.Lost c ↔ there = false)) := by
  have hlimit : 0 < min batch Store.maxCheckBatch := lt_min hbatch (by decide)
  set page := s.store.index.liveChunksPage s.cursor (min batch Store.maxCheckBatch) with hpage
  have hrows : (s.store.index.tree.chunkRefs.toList.map Prod.fst).Pairwise (· < ·) := by
    rw [List.pairwise_map]
    exact (Std.ExtTreeMap.ordered_keys_toList (t := s.store.index.tree.chunkRefs)).imp fun h =>
      compare_lt_iff_lt.mp h
  have hmem : c ∈ page.1 ↔ s.cursor.all (· < c) = true ∧ page.2.all (c ≤ ·) = true := by
    refine (Pages.mem_page hrows hlimit).trans (and_congr_left' ?_)
    rw [Pages.mem_after, Table.mem_keys]
    exact and_iff_right hstays.1
  have hlost : ((s.step (.check batch now)).store.Lost c ↔
      if c ∈ page.1 then s.store.hasChunk c = false else s.store.Lost c) :=
        s.store.lost_settle page.1 now c
  -- what the slice does not have is before the cursor, or after where the slice ends
  have hdone : page.2.all (c ≤ ·) = true →
      ((s.step (.check batch now)).store.Lost c ↔ there = false) := by
    intro hend
    rw [hlost]
    split_ifs with hin
    · rw [hstays.2]
    · refine h ?_
      cases hcursor : s.cursor with
      | none => exact absurd (hmem.mpr ⟨by rw [hcursor]; rfl, hend⟩) hin
      | some at' =>
        rw [hcursor] at hmem
        have hnot : ¬at' < c := fun hlt => hin (hmem.mpr ⟨by simpa using hlt, hend⟩)
        simpa using hnot
  refine ⟨fun hpassed => hdone ?_, fun hnone => hdone ?_⟩
  · change page.2.any (c ≤ ·) = true at hpassed
    cases hnext : page.2 <;> simp_all
  · rw [show page.2 = none from hnone]
    rfl

/-- Nothing but a check moves the cursor, and what else happens keeps it settled. -/
theorem Settled.other (h : Settled c there s) (event : ShelfEvent)
    (hcheck : ∀ batch now, event ≠ .check batch now)
    (hstays : Stays c there (s.step event).store) : Settled c there (s.step event) := by
  cases event with
  | check batch now => exact absurd rfl (hcheck batch now)
  | put address sealed => exact h
  | fault address => exact h
  | files tree => exact h
  | accept address sealed =>
    intro hpassed
    have hbefore : s.store.Lost c ↔ there = false := h hpassed
    have hstep : (s.step (.accept address sealed)).store = (s.store.acceptChunk address sealed).1 :=
      rfl
    rcases s.store.acceptChunk_cases address sealed with hsame | ⟨x, -, -, htaken⟩
    · rw [hstep, hsame]
      exact hbefore
    · rw [hstep, htaken] at hstays ⊢
      show ((s.store.index.losses.erase address)[c]?).isSome = true ↔ there = false
      by_cases heq : address = c
      · -- it is here now, so it was all the time
        have hhere : there = true := by
          rw [← hstays.2, heq]
          exact Store.isSome_putBlob s.store.blobs c sealed
        simp [heq, hhere]
      · rw [Table.getElem?_erase_ne _ heq]
        exact hbefore

end

/-- What stays as it is, is settled at the end of a pass. -/
theorem Settled.pass {c : ChunkId} {there : Bool} {events : List ShelfEvent} {s : DiskPass K}
    (h : Settled c there s) (hpass : Pass s events) (hstays : Throughout (Stays c there) s events) :
    (s.run events).store.Lost c ↔ there = false := by
  induction events generalizing s with
  | nil => exact hpass.elim
  | cons event rest ih =>
    rw [show s.run (event :: rest) = (s.step event).run rest from rfl]
    cases event with
    | check batch now =>
      obtain ⟨hbatch, hrest⟩ := hpass
      obtain ⟨hnext, hend⟩ := h.check hstays.1 hbatch now
      split_ifs at hrest with hlast
      · rw [hrest]
        exact hend hlast
      · exact ih hnext hrest hstays.2
    | _ => exact ih (h.other _ (by simp) hstays.2.start) hpass hstays.2

/-- **A pass finds what is missing.** Go over the rows from the top to the end in slices of any
sizes but zero, while chunks arrive, writes put others, the disk loses some and the file tables
change. A chunk that has a row all the while is queued in the end if it was missing all the while,
and is not queued if it was there all the while, whatever the queue was before. -/
theorem pass_settles (st : Store K) (events : List ShelfEvent) (hpass : Pass ⟨st, none⟩ events)
    (c : ChunkId) (there : Bool) (hstays : Throughout (Stays c there) ⟨st, none⟩ events) :
    (run ⟨st, none⟩ events).store.Lost c ↔ there = false :=
  Settled.pass (fun hpassed => absurd hpassed (by simp)) hpass hstays

/-- Two rows with nothing on the disk, one of which comes while they are looked for. -/
def twoRows : Store symbolic :=
  let st : Store symbolic := .new 1 7 fourBytes
  { st with index := { st.index with tree :=
    { st.index.tree with chunkRefs := (Std.ExtTreeMap.insert ∅ 5 1).insert 6 1 } } }

def whileOneComes : List ShelfEvent := [.check 1 7, .put 6 [5], .check 4 8]

theorem pass_settles_twoRows : (run ⟨twoRows, none⟩ whileOneComes).store.Lost 5 := by
  have hpass : Pass ⟨twoRows, none⟩ whileOneComes := by
    simp only [whileOneComes, Pass]
    decide +kernel
  have hstays : Throughout (Stays 5 false) ⟨twoRows, none⟩ whileOneComes := by
    simp only [whileOneComes, Throughout, Stays]
    decide +kernel
  exact (pass_settles twoRows _ hpass 5 false hstays).mpr rfl

end DiskPass

/-! ### Fetching back -/

/-- What a repair found and fixed. -/
structure RepairReport where
  lost : ℕ
  asked : ℕ
  restored : ℕ
  forged : ℕ
  notAsked : ℕ

def repairFetchPerRound : ℕ := 32

def lossWindow : ℕ := 8

/-- Ask a peer for the chunks of a list that it is recorded as holding. -/
def repairEach (source : ChunkSource) (peer : DeviceId) (now : ℕ) :
    List ChunkId → Store K → RepairReport → Store K × Except SyncError RepairReport
  | [], st, r => (st, .ok r)
  | address :: rest, st, r =>
    if r.asked = repairFetchPerRound then (st, .ok r)
    else if !(st.index.ledger.holdersOf address).any (fun holder => holder.1 = peer) then
      repairEach source peer now rest st { r with notAsked := r.notAsked + 1 }
    else
      match source.fetch r.asked st.owner address with
      | .error error => (st, .error error)
      | .ok none => repairEach source peer now rest st { r with asked := r.asked + 1 }
      | .ok (some sealed) =>
        match st.acceptChunk address sealed with
        | (st, true) =>
          repairEach source peer now rest st { r with asked := r.asked + 1, restored :=
            r.restored + 1 }
        | (st, false) =>
          -- the record is no evidence any more
          repairEach source peer now rest { st with index := st.index.forgetHolder address peer now }
            { r with asked := r.asked + 1, forged := r.forged + 1 }

/-- A round of repair: look for some chunks, and ask for some of those that are queued. -/
def Store.repair (st : Store K) (source : ChunkSource) (peer : DeviceId) (cursor : ChunkId)
    (scan now : ℕ) :
    Store K × Except SyncError RepairReport :=
  let st := (st.missingLocally cursor scan now).1
  let losses := st.index.knownLossesFrom cursor (repairFetchPerRound * lossWindow)
  repairEach source peer now losses st ⟨st.index.losses.size, 0, 0, 0, 0⟩

/-- What repair does to a store, if `forged` answers of `who` were not the chunks asked for: what
was there stays, what is new is what it is said to be, no loss is forgotten, and each of these
answers has cost `who` a record. -/
structure Mended (who : DeviceId) (st : Store K) (forged : ℕ) (st' : Store K) : Prop where
  kept : ∀ (c : ChunkId) (b : Bytes), st.blobs[c]? = some b → st'.blobs[c]? = some b
  genuine : ∀ (c : ChunkId) (b : Bytes), st'.blobs[c]? = some b →
    st.blobs[c]? = some b ∨ ∃ x, K.openChunk c b = some x ∧ K.chunkId x = c
  queued : ∀ c, st.Lost c → st'.Lost c ∨ st'.hasChunk c = true
  records : st.index.OneRelation → st'.index.OneRelation ∧
    forged + st'.index.ledger.heldBy who ≤ st.index.ledger.heldBy who

namespace Mended

variable {who peer : DeviceId} {st st' st'' : Store K} {m n : ℕ} {address : ChunkId}

theorem refl (who : DeviceId) (st : Store K) : Mended who st 0 st :=
  ⟨fun _ _ h => h, fun _ _ h => .inl h, fun _ h => .inl h, fun h => ⟨h, (Nat.zero_add _).le⟩⟩

theorem trans (h : Mended who st m st') (h' : Mended who st' n st'') : Mended who st (m + n) st'' := by
  refine ⟨fun c b hb => h'.kept c b (h.kept c b hb), fun c b hb => ?_, fun c hc => ?_, fun hone => ?_⟩
  · exact (h'.genuine c b hb).elim (h.genuine c b) .inr
  · rcases h.queued c hc with hc | hc
    · exact h'.queued c hc
    · obtain ⟨b, hb⟩ := Option.isSome_iff_exists.mp hc
      exact .inr (Option.isSome_iff_exists.mpr ⟨b, h'.kept c b hb⟩)
  · obtain ⟨hone', hle⟩ := h.records hone
    obtain ⟨hone'', hle'⟩ := h'.records hone'
    exact ⟨hone'', by omega⟩

theorem fewer (h : Mended who st m st') (hle : n ≤ m) : Mended who st n st' :=
  ⟨h.kept, h.genuine, h.queued, fun hone =>
    ⟨(h.records hone).1, (Nat.add_le_add_right hle _).trans (h.records hone).2⟩⟩

theorem settle (who : DeviceId) (st : Store K) (slice : List ChunkId) (now : ℕ) :
    Mended who st 0 (st.settle slice now) := by
  have hledger : (st.settle slice now).index.ledger = st.index.ledger := by
    unfold Store.settle Index.settleLosses
    dsimp only
    split_ifs <;> rfl
  refine ⟨fun _ _ h => h, fun _ _ h => .inl h, fun c hc => ?_, fun hone => ?_⟩
  · rw [st.lost_settle]
    split_ifs
    · cases hhas : st.hasChunk c
      · exact .inl rfl
      · exact .inr hhas
    · exact .inl hc
  · rw [Index.OneRelation, hledger]
    exact ⟨hone, (Nat.zero_add _).le⟩

theorem taken {sealed x : Bytes} (hopen : K.openChunk address sealed = some x)
    (hid : K.chunkId x = address) :
    Mended who st 0
      (st.withHere (putBlob st.blobs address sealed).1 (st.index.losses.erase address)) := by
  refine ⟨fun c b hb => ?_, fun c b hb => ?_, fun c hc => ?_, fun hone => ⟨hone, (Nat.zero_add _).le⟩⟩
  · refine (getElem?_putBlob st.blobs address c sealed).trans ?_
    rw [if_neg fun h => by simp [← h.2, h.1] at hb, hb]
  · rw [Store.withHere, getElem?_putBlob] at hb
    split_ifs at hb with hnew
    · cases hb
      exact .inr ⟨x, hnew.2 ▸ hopen, hnew.2 ▸ hid⟩
    · exact .inl hb
  · by_cases heq : address = c
    · exact .inr (heq ▸ Store.isSome_putBlob st.blobs address sealed)
    · left
      show ((st.index.losses.erase address)[c]?).isSome = true
      rw [Table.getElem?_erase_ne _ heq]
      exact hc

/-- A peer that is caught loses the record it was asked for. -/
theorem caught (now : ℕ)
    (hrecord : (st.index.ledger.holdersOf address).any fun holder => holder.1 = peer) :
    Mended who st (if peer = who then 1 else 0)
      { st with index := st.index.forgetHolder address peer now } := by
  refine ⟨fun _ _ h => h, fun _ _ h => .inl h, fun _ h => .inl h, fun hone => ?_⟩
  have hone' : (st.index.ledger.dropRecord K.auditTag address peer).OneRelation K.auditTag :=
    Ledger.OneRelation.dropRecord hone address peer
  refine ⟨hone', ?_⟩
  show _ + (st.index.ledger.dropRecord K.auditTag address peer).heldBy who ≤ _
  have hthere : (st.index.ledger.holders[Ledger.key address peer]?).isSome = true := by
    obtain ⟨holder, hmem, hpeer⟩ := List.any_eq_true.mp hrecord
    obtain ⟨row, hrow, rfl⟩ := List.mem_map.mp hmem
    obtain ⟨hin, hchunk⟩ := List.mem_filter.mp hrow
    have hkey : row.1 = Ledger.key address peer :=
      congrArg toLex (Prod.ext (of_decide_eq_true hchunk) (of_decide_eq_true hpeer))
    rw [← hkey, Table.mem_toList.mp hin]
    rfl
  have htally := Table.tally_erase (Ledger.names who) st.index.ledger.holders (Ledger.key address peer)
  rw [Ledger.names_key, hthere] at htally
  rw [hone'.counts, Ledger.OneRelation.counts hone]
  refine le_of_eq (Eq.trans ?_ htally)
  rw [Nat.add_comm]
  simp [Ledger.dropRecord, Ledger.eraseRecord]

end Mended

/-- Whatever the peer answers, each question mends. -/
theorem repairEach_mends (who : DeviceId) (source : ChunkSource) (peer : DeviceId) (now : ℕ) :
    ∀ (losses : List ChunkId) (st : Store K) (r : RepairReport), ∃ forged,
      Mended who st forged (repairEach source peer now losses st r).1 ∧
      ∀ r', (repairEach source peer now losses st r).2 = .ok r' → peer = who →
        r'.forged = r.forged + forged
  | [], st, r => ⟨0, .refl who st, fun r' h _ => by cases h; rfl⟩
  | address :: rest, st, r => by
    unfold repairEach
    split_ifs with hfull hrecord
    · exact ⟨0, .refl who st, fun r' h _ => by cases h; rfl⟩
    · exact repairEach_mends who source peer now rest st _
    · have hrecord : (st.index.ledger.holdersOf address).any (fun holder => holder.1 = peer) =
        true := by
        simpa using hrecord
      cases source.fetch r.asked st.owner address with
      | error error => exact ⟨0, .refl who st, fun r' h _ => by cases h⟩
      | ok answer =>
        cases answer with
        | none => exact repairEach_mends who source peer now rest st _
        | some sealed =>
          dsimp only
          rcases st.acceptChunk_cases address sealed with hsame | ⟨x, hopen, hid, htaken⟩
          · rw [hsame]
            obtain ⟨forged, hmended, hcount⟩ := repairEach_mends who source peer now rest
              { st with index := st.index.forgetHolder address peer now }
              { r with asked := r.asked + 1, forged := r.forged + 1 }
            refine ⟨_, (Mended.caught now hrecord).trans hmended, fun r' h hwho => ?_⟩
            rw [hcount r' h hwho, if_pos hwho, Nat.add_assoc]
          · rw [htaken]
            obtain ⟨forged, hmended, hcount⟩ := repairEach_mends who source peer now rest _
              { r with asked := r.asked + 1, restored := r.restored + 1 }
            exact ⟨forged, Nat.zero_add forged ▸ (Mended.taken hopen hid).trans hmended, hcount⟩

/-- A round of repair with a peer, whatever it answers. -/
structure RepairRound where
  source : ChunkSource
  peer : DeviceId
  cursor : ChunkId
  scan : ℕ
  now : ℕ

def RepairRound.apply (r : RepairRound) (st : Store K) : Store K × Except SyncError RepairReport :=
  st.repair r.source r.peer r.cursor r.scan r.now

/-- How many answers of `who` a round with `peer` reports as forged. -/
def forgedBy (who peer : DeviceId) : Except SyncError RepairReport → ℕ
  | .ok report => if peer = who then report.forged else 0
  | .error _ => 0

/-- Rounds with any peers, and how many answers of `who` they report as forged. -/
def repairs (who : DeviceId) : List RepairRound → Store K → Store K × ℕ
  | [], st => (st, 0)
  | r :: rest, st =>
    let (st, result) := r.apply st
    let (st, more) := repairs who rest st
    (st, forgedBy who r.peer result + more)

theorem RepairRound.mends (who : DeviceId) (r : RepairRound) (st : Store K) :
    Mended who st (forgedBy who r.peer (r.apply st).2) (r.apply st).1 := by
  set scanned := (st.missingLocally r.cursor r.scan r.now).1 with hscanned
  have hscan : Mended who st 0 scanned := .settle who st _ r.now
  obtain ⟨forged, hround, hcount⟩ := repairEach_mends who r.source r.peer r.now
    (scanned.index.knownLossesFrom r.cursor (repairFetchPerRound * lossWindow)) scanned
    ⟨scanned.index.losses.size, 0, 0, 0, 0⟩
  refine (hscan.trans hround).fewer (le_of_le_of_eq ?_ (Nat.zero_add forged).symm)
  cases hresult : (r.apply st).2 with
  | error error => exact Nat.zero_le _
  | ok report =>
    unfold forgedBy
    split_ifs with hwho
    · exact (hcount report hresult hwho).le.trans (Nat.zero_add _).le
    · exact Nat.zero_le _

/-- **Repair mends, whatever peers answer.** After any rounds with any peers: no bytes that were
here are changed, what came opens to its address, every chunk that was queued is queued or here, and
a peer's forged answers are at most as many as the records it had, each of which it has lost. -/
theorem repairs_mend (who : DeviceId) : ∀ (rounds : List RepairRound) (st : Store K),
    Mended who st (repairs who rounds st).2 (repairs who rounds st).1
  | [], st => .refl who st
  | r :: rest, st => (r.mends who st).trans (repairs_mend who rest (r.apply st).1)

end Itsanas
