/-
# The holder ledger

`itsanas-store/src/holders.rs`, and of `index.rs` and `index/placement.rs` the tables
about other devices: who acknowledged which chunk and when, and what is known of these
devices. One fact is written three times, by chunk (`holders`), by device in the order
of the audit (`holdings`) and as a count per device (`holderCounts`). That the three
agree is `Ledger.OneRelation`; every change is made of records put and records dropped,
and both keep it.

Stamps and counts are natural numbers: a ledger with more than `u64::MAX` rows is not
modelled, nor are rows of `holdings` with a key of another length.
-/
import Itsanas.Oplog

namespace Itsanas

/-- What auditing a peer has shown, over time. -/
structure Reliability where
  consecutiveFailures : ℕ
  passed : ℕ
  failed : ℕ
  lastFailureUnix : ℕ
  paused : Bool
  deriving DecidableEq

namespace Reliability

def new : Reliability := ⟨0, 0, 0, 0, false⟩

def failuresBeforePause : ℕ := 3

def probationCeiling : ℕ := failuresBeforePause + 32

/-- Record one answered round: it pays off one failure. -/
def passedOne (r : Reliability) : Reliability :=
  { r with
    consecutiveFailures := r.consecutiveFailures - 1
    passed := saturatingAdd r.passed 1
    paused := if r.consecutiveFailures - 1 = 0 then false else r.paused }

/-- Record one failed round. -/
def failedOne (r : Reliability) (now : ℕ) : Reliability :=
  let failures := min (r.consecutiveFailures + 1) probationCeiling
  { r with
    consecutiveFailures := failures
    failed := saturatingAdd r.failed 1
    lastFailureUnix := now
    paused := if failuresBeforePause ≤ failures then true else r.paused }

end Reliability

/-- What this node can say about who else holds one chunk. -/
structure HolderEvidence where
  live : ℕ
  fresh : ℕ
  proved : ℕ
  deriving DecidableEq

/-- The tables about other devices. -/
structure Ledger where
  /-- When a device last confirmed a chunk. -/
  holders : Table (ChunkId ×ₗ DeviceId) ℕ
  /-- The same by device, in audit order. -/
  holdings : Table (DeviceId ×ₗ AuditTag ×ₗ ChunkId) ℕ
  /-- How many records name a device. -/
  holderCounts : Table DeviceId ℕ
  holderCountsBuilt : Bool
  deviceSeen : Table DeviceId ℕ
  reliability : Table DeviceId Reliability
  /-- When a device last passed an audit. -/
  devicePassed : Table DeviceId ℕ
  /-- Until when a device said it is draining. -/
  draining : Table DeviceId ℕ
  /-- When this node released its claim on a copy. -/
  released : Table (ChunkId ×ₗ DeviceId) ℕ
  /-- When a device last refused a chunk for a full pledge. -/
  peerFull : Table DeviceId ℕ

namespace Ledger

/-- What the first open leaves. -/
def new : Ledger := ⟨∅, ∅, ∅, true, ∅, ∅, ∅, ∅, ∅, ∅⟩

def confirmedFor : ℕ := 14 * 24 * 60 * 60

def refreshAfter : ℕ := confirmedFor / 4

def liveFor : ℕ := refreshAfter * 2

/-- Longest a device may be left out for saying it is draining. -/
def maxDrain : ℕ := 2 * 60 * 60

def seenStep : ℕ := 15 * 60

/-- How many other live machines must hold a chunk before this one may let it
go. -/
def safeToRelease : ℕ := 2

def key (chunk : ChunkId) (device : DeviceId) : ChunkId ×ₗ DeviceId := toLex (chunk, device)

def byDevice (device : DeviceId) (tag : AuditTag) (chunk : ChunkId) :
    DeviceId ×ₗ AuditTag ×ₗ ChunkId :=
  toLex (device, toLex (tag, chunk))

/-- The records of one chunk, by device. -/
def holdersOf (l : Ledger) (chunk : ChunkId) : List (DeviceId × ℕ) :=
  (l.holders.toList.filter fun r => (ofLex r.1).1 = chunk).map fun r => ((ofLex r.1).2, r.2)

/-- The chunks one device is recorded as holding, in audit order. -/
def holdingsOf (l : Ledger) (device : DeviceId) : List ChunkId :=
  (l.holdings.toList.filter fun r => (ofLex r.1).1 = device).map fun r => (ofLex (ofLex r.1).2).2

/-- How many of this node's chunks `device` is recorded as holding. -/
def heldBy (l : Ledger) (device : DeviceId) : ℕ := (l.holderCounts[device]?).getD 0

/-- Add `delta` to the count of `device`, never below zero. -/
def bump (counts : Table DeviceId ℕ) (device : DeviceId) (delta : ℤ) : Table DeviceId ℕ :=
  let next := ((((counts[device]?).getD 0 : ℕ) : ℤ) + delta).toNat
  if next = 0 then counts.erase device else counts.insert device next

/-- Whether `device` is draining at `now`. -/
def drainingAt (l : Ledger) (device : DeviceId) (now : ℕ) : Bool :=
  (l.draining[device]?).any fun ends => now < ends

/-- A record of a device that passed an audit, was seen lately and confirmed this chunk
lately. -/
def provedRecord (l : Ledger) (now : ℕ) (r : DeviceId × ℕ) : Bool :=
  let audibleSince := now - liveFor
  0 < (l.reliability[r.1]?).elim 0 Reliability.passed ∧
    audibleSince ≤ (l.deviceSeen[r.1]?).getD 0 ∧ audibleSince ≤ r.2

/-- What one record of a chunk adds to the evidence. -/
def addEvidence (l : Ledger) (now : ℕ) (e : HolderEvidence) (r : DeviceId × ℕ) : HolderEvidence :=
  let freshSince := now - confirmedFor
  if (l.deviceSeen[r.1]?).getD 0 < freshSince then e
  else
    ⟨e.live + 1, if freshSince ≤ r.2 then e.fresh + 1 else e.fresh,
      if l.provedRecord now r then e.proved + 1 else e.proved⟩

/-- What this node can say about who else holds `chunk` at `now`. -/
def holderEvidence (l : Ledger) (chunk : ChunkId) (now : ℕ) : HolderEvidence :=
  (l.holdersOf chunk).foldl (l.addEvidence now) ⟨0, 0, 0⟩

/-! ### Recording -/

/-- Whether `device` was stamped as seen less than a step ago. -/
def seenWithinStep (l : Ledger) (device : DeviceId) (now : ℕ) : Bool :=
  (l.deviceSeen[device]?).any fun seen => seen ≤ now ∧ now - seen < seenStep

/-- Of `chunks`, the ones with no record for `device` younger than `refreshAfter`. -/
def withoutFreshRecord (l : Ledger) (chunks : List ChunkId) (device : DeviceId) (now : ℕ) :
    List ChunkId :=
  chunks.filter fun chunk =>
    ¬(l.holders[key chunk device]?).any fun stamp => now - refreshAfter ≤ stamp

/-- Of `chunks`, those whose copy on `device` this node has not released lately. -/
def notReleased (l : Ledger) (chunks : List ChunkId) (device : DeviceId) (now : ℕ) : List ChunkId :=
  chunks.filter fun chunk =>
    ¬(l.released[key chunk device]?).any fun at' => now - at' < confirmedFor

/-- Forget that this node released the copies of `chunks` on `device`. -/
def clearReleased (l : Ledger) (chunks : List ChunkId) (device : DeviceId) : Ledger :=
  { l with released := chunks.foldl (fun t chunk => t.erase (key chunk device)) l.released }

/-- Record that this node released the copies of `chunks` on `device`. -/
def noteReleased (l : Ledger) (chunks : List ChunkId) (device : DeviceId) (now : ℕ) : Ledger :=
  { l with released := chunks.foldl (fun t chunk => t.insert (key chunk device) now) l.released }

section
variable (tag : ChunkId → AuditTag)

/-- Write one record, or its stamp again. -/
def putRecord (device : DeviceId) (now : ℕ) (l : Ledger) (chunk : ChunkId) : Ledger :=
  { l with
    holders := l.holders.insert (key chunk device) now
    holdings := l.holdings.insert (byDevice device (tag chunk) chunk) now
    holderCounts :=
      if (l.holders[key chunk device]?).isNone then bump l.holderCounts device 1 else l.holderCounts }

/-- Take one record out of both orderings. -/
def eraseRecord (l : Ledger) (chunk : ChunkId) (device : DeviceId) : Ledger :=
  { l with
    holders := l.holders.erase (key chunk device)
    holdings := l.holdings.erase (byDevice device (tag chunk) chunk) }

/-- Take one record out of both orderings, and of the count if it was there. -/
def dropRecord (l : Ledger) (chunk : ChunkId) (device : DeviceId) : Ledger :=
  { l.eraseRecord tag chunk device with
    holderCounts :=
      if (l.holders[key chunk device]?).isSome then bump l.holderCounts device (-1)
      else l.holderCounts }

/-- Record contact with `device`, and what is due. -/
def recordDue (l : Ledger) (due : List ChunkId) (device : DeviceId) (now : ℕ) : Ledger :=
  if due = [] ∧ l.seenWithinStep device now then l
  else due.foldl (putRecord tag device now) { l with deviceSeen := l.deviceSeen.insert device now }

/-- Record many acknowledgements. A copy this node released is not taken back on the
host's word. -/
def recordHolders (l : Ledger) (chunks : List ChunkId) (device : DeviceId) (now : ℕ) : Ledger :=
  if chunks = [] then l
  else
    let due := l.withoutFreshRecord chunks device now
    l.recordDue tag (l.notReleased due device now) device now

/-- Record chunks `device` has just accepted: any release of an old copy is over. -/
def recordStored (l : Ledger) (chunks : List ChunkId) (device : DeviceId) (now : ℕ) : Ledger :=
  if chunks = [] then l
  else
    let l' := l.clearReleased chunks device
    l'.recordDue tag (l'.withoutFreshRecord chunks device now) device now

/-! ### Forgetting -/

/-- Drop every record of one chunk. -/
def forgetHoldersOf (l : Ledger) (chunk : ChunkId) : Ledger :=
  (l.holdersOf chunk).foldl (fun l r => l.dropRecord tag chunk r.1) l

/-- Drop the release records of a chunk leaving the live set. -/
def purgeReleased (l : Ledger) (chunk : ChunkId) : Ledger :=
  { l with
    released := ((l.released.toList.filter fun r => (ofLex r.1).1 = chunk).map Prod.fst).foldl
      (fun t k => t.erase k) l.released }

/-- Drop every record naming `device`, found through `holdings`. -/
def forgetDevice (l : Ledger) (device : DeviceId) : Ledger :=
  (l.holdingsOf device).foldl (fun l chunk => l.eraseRecord tag chunk device)
    { l with
      holderCounts := l.holderCounts.erase device
      draining := l.draining.erase device }

/-! ### Opening -/

/-- Build `holdings` from `holders` if it is missing. -/
def rebuildHoldingsIfStale (l : Ledger) : Ledger :=
  if l.holders.isEmpty then l
  else if ¬l.holdings.isEmpty then l
  else
    { l with
      holdings := l.holders.toList.foldl (fun t r =>
        t.insert (byDevice (ofLex r.1).2 (tag (ofLex r.1).1) (ofLex r.1).1) r.2) ∅ }

/-- Count the rows of `holdings` per device, once. -/
def buildHolderCountsIfMissing (l : Ledger) : Ledger :=
  if l.holderCountsBuilt then l
  else
    { l with
      holderCounts := l.holdings.toList.foldl (fun t r =>
        t.insert (ofLex r.1).1 ((t[(ofLex r.1).1]?).getD 0 + 1)) ∅
      holderCountsBuilt := true }

def reopen (l : Ledger) : Ledger := (l.rebuildHoldingsIfStale tag).buildHolderCountsIfMissing

end

/-! ### One relation -/

@[simp] theorem key_inj {c c' : ChunkId} {d d' : DeviceId} :
    key c d = key c' d' ↔ c = c' ∧ d = d' := by
  simp [key]

@[simp] theorem byDevice_inj {c c' : ChunkId} {d d' : DeviceId} {t t' : AuditTag} :
    byDevice d t c = byDevice d' t' c' ↔ d = d' ∧ t = t' ∧ c = c' := by
  simp [byDevice]

/-- The keys that name `device`. -/
def names (device : DeviceId) (k : ChunkId ×ₗ DeviceId) : Bool := (ofLex k).2 = device

theorem names_key (device d : DeviceId) (c : ChunkId) : names device (key c d) = decide (d = device) :=
  rfl

/-- What holds of every ledger: both orderings have the same records, each under the tag
of its chunk, and the counts count them. -/
structure OneRelation (tag : ChunkId → AuditTag) (l : Ledger) : Prop where
  holdings : ∀ device t chunk, l.holdings[byDevice device t chunk]? =
    if t = tag chunk then l.holders[key chunk device]? else none
  counts : ∀ device, l.heldBy device = l.holders.tally (names device)

section
variable {tag : ChunkId → AuditTag} {l : Ledger}

theorem new_oneRelation : OneRelation tag new where
  holdings _ _ _ := by
    split_ifs
    · exact Std.ExtTreeMap.getElem?_empty.trans Std.ExtTreeMap.getElem?_empty.symm
    · exact Std.ExtTreeMap.getElem?_empty
  counts _ := (Table.tally_empty _).symm

/-- The count of each device after one of them was changed. -/
theorem getD_bump (counts : Table DeviceId ℕ) (device d : DeviceId) (delta : ℤ) :
    ((bump counts device delta)[d]?).getD 0 =
      if device = d then ((((counts[device]?).getD 0 : ℕ) : ℤ) + delta).toNat
      else (counts[d]?).getD 0 := by
  unfold bump
  dsimp only
  split_ifs with hz hd hd
  · rw [← hd, Table.getElem?_erase_self', hz]
    rfl
  · rw [Table.getElem?_erase_ne _ hd]
  · rw [← hd, Table.getElem?_insert_self']
    rfl
  · rw [Table.getElem?_insert_ne _ _ hd]

/-- What is written of other tables does not matter. -/
theorem OneRelation.congr {l' : Ledger} (h : OneRelation tag l) (h1 : l'.holders = l.holders)
    (h2 : l'.holdings = l.holdings) (h3 : l'.holderCounts = l.holderCounts) : OneRelation tag l' := by
  refine ⟨fun device t chunk => ?_, fun device => ?_⟩
  · rw [h1, h2]
    exact h.holdings device t chunk
  · rw [heldBy, h1, h3]
    exact h.counts device

theorem OneRelation.putRecord (h : OneRelation tag l) (device : DeviceId) (now : ℕ) (chunk : ChunkId) :
    OneRelation tag (l.putRecord tag device now chunk) := by
  refine ⟨fun d t c => ?_, fun d => ?_⟩
  · have hold := h.holdings d t c
    simp only [Ledger.putRecord, Table.getElem?_insert', byDevice_inj, key_inj]
    by_cases hk : device = d ∧ chunk = c
    · obtain ⟨rfl, rfl⟩ := hk
      by_cases ht : t = tag chunk
      · simp [ht]
      · simpa [ht, Ne.symm ht] using hold
    · have h1 : ¬(device = d ∧ tag chunk = t ∧ chunk = c) := fun hc => hk ⟨hc.1, hc.2.2⟩
      have h2 : ¬(chunk = c ∧ device = d) := fun hc => hk hc.symm
      rw [if_neg h1, if_neg h2, hold]
  · have hold := h.counts d
    have htally := Table.tally_insert (names d) l.holders (key chunk device) now
    rw [names_key] at htally
    unfold heldBy at hold ⊢
    simp only [Ledger.putRecord]
    cases hr : l.holders[key chunk device]? with
    | none =>
      rw [hr] at htally
      simp only [Option.isNone_none, if_true, getD_bump]
      split_ifs with hd
      · subst hd
        simp at htally
        omega
      · simp [hd] at htally
        omega
    | some stamp =>
      rw [hr] at htally
      simp at htally ⊢
      omega

theorem OneRelation.dropRecord (h : OneRelation tag l) (chunk : ChunkId) (device : DeviceId) :
    OneRelation tag (l.dropRecord tag chunk device) := by
  refine ⟨fun d t c => ?_, fun d => ?_⟩
  · have hold := h.holdings d t c
    simp only [Ledger.dropRecord, eraseRecord, Table.getElem?_erase', byDevice_inj, key_inj]
    by_cases hk : device = d ∧ chunk = c
    · obtain ⟨rfl, rfl⟩ := hk
      by_cases ht : t = tag chunk
      · simp [ht]
      · simpa [ht, Ne.symm ht] using hold
    · have h1 : ¬(device = d ∧ tag chunk = t ∧ chunk = c) := fun hc => hk ⟨hc.1, hc.2.2⟩
      have h2 : ¬(chunk = c ∧ device = d) := fun hc => hk hc.symm
      rw [if_neg h1, if_neg h2, hold]
  · have hold := h.counts d
    have htally := Table.tally_erase (names d) l.holders (key chunk device)
    rw [names_key] at htally
    unfold heldBy at hold ⊢
    simp only [Ledger.dropRecord, eraseRecord]
    cases hr : l.holders[key chunk device]? with
    | none =>
      rw [hr] at htally
      simp at htally ⊢
      omega
    | some stamp =>
      rw [hr] at htally
      simp only [Option.isSome_some, if_true, getD_bump]
      split_ifs with hd
      · subst hd
        simp at htally
        omega
      · simp [hd] at htally
        omega

theorem OneRelation.recordDue (h : OneRelation tag l) (due : List ChunkId) (device : DeviceId)
    (now : ℕ) : OneRelation tag (l.recordDue tag due device now) := by
  unfold Ledger.recordDue
  split_ifs
  · exact h
  · refine List.foldlRecOn (motive := OneRelation tag) due _ (h.congr rfl rfl rfl) ?_
    exact fun l hl chunk _ => hl.putRecord device now chunk

theorem OneRelation.recordHolders (h : OneRelation tag l) (chunks : List ChunkId)
    (device : DeviceId) (now : ℕ) : OneRelation tag (l.recordHolders tag chunks device now) := by
  unfold Ledger.recordHolders
  split_ifs
  · exact h
  · exact h.recordDue _ device now

theorem OneRelation.recordStored (h : OneRelation tag l) (chunks : List ChunkId) (device : DeviceId)
    (now : ℕ) : OneRelation tag (l.recordStored tag chunks device now) := by
  unfold Ledger.recordStored
  split_ifs
  · exact h
  · have hclear : OneRelation tag (l.clearReleased chunks device) := h.congr rfl rfl rfl
    exact hclear.recordDue _ device now

theorem OneRelation.forgetHoldersOf (h : OneRelation tag l) (chunk : ChunkId) :
    OneRelation tag (l.forgetHoldersOf tag chunk) := by
  unfold Ledger.forgetHoldersOf
  refine List.foldlRecOn (motive := OneRelation tag) (l.holdersOf chunk) _ h ?_
  exact fun l hl r _ => hl.dropRecord chunk r.1

/-! ### A device leaves -/

/-- A record is under the device it names. -/
theorem OneRelation.mem_holdingsOf (h : OneRelation tag l) {device : DeviceId} {chunk : ChunkId} :
    chunk ∈ l.holdingsOf device ↔ (l.holders[key chunk device]?).isSome := by
  unfold holdingsOf
  simp only [List.mem_map, List.mem_filter, decide_eq_true_eq]
  constructor
  · rintro ⟨⟨k, stamp⟩, ⟨hm, rfl⟩, rfl⟩
    rw [Table.mem_toList] at hm
    have hold := h.holdings (ofLex k).1 (ofLex (ofLex k).2).1 (ofLex (ofLex k).2).2
    rw [show byDevice (ofLex k).1 (ofLex (ofLex k).2).1 (ofLex (ofLex k).2).2 = k from rfl, hm] at hold
    split_ifs at hold
    rw [← hold]
    rfl
  · intro hs
    obtain ⟨stamp, hstamp⟩ := Option.isSome_iff_exists.mp hs
    refine ⟨(byDevice device (tag chunk) chunk, stamp), ⟨Table.mem_toList.mpr ?_, rfl⟩, rfl⟩
    rw [h.holdings, if_pos rfl, hstamp]

/-- Erasing records of one device touches no other device. -/
theorem foldl_eraseRecord (tag : ChunkId → AuditTag) (device : DeviceId) : ∀ (chunks : List ChunkId)
    (l : Ledger), let l' := chunks.foldl (fun l chunk => l.eraseRecord tag chunk device) l
    (∀ c d, l'.holders[key c d]? = if c ∈ chunks ∧ d = device then none else l.holders[key c d]?) ∧
    (∀ d t c, l'.holdings[byDevice d t c]? =
      if c ∈ chunks ∧ d = device ∧ t = tag c then none else l.holdings[byDevice d t c]?) ∧
    (∀ d ≠ device, l'.holders.tally (names d) = l.holders.tally (names d)) ∧
    l'.holderCounts = l.holderCounts
  | [], _ => by simp
  | chunk :: rest, l => by
    obtain ⟨h1, h2, h3, h4⟩ := foldl_eraseRecord tag device rest (l.eraseRecord tag chunk device)
    refine ⟨fun c d => ?_, fun d t c => ?_, fun d hd => ?_, h4⟩
    · rw [List.foldl_cons, h1]
      simp only [eraseRecord, Table.getElem?_erase', key_inj]
      by_cases hk : c = chunk ∧ d = device
      · simp [hk]
      · have hne : ¬(chunk = c ∧ device = d) := fun h => hk ⟨h.1.symm, h.2.symm⟩
        have hmem : (c ∈ chunk :: rest ∧ d = device) ↔ (c ∈ rest ∧ d = device) := by
          rw [List.mem_cons]
          tauto
        rw [if_neg hne, if_congr hmem rfl rfl]
    · rw [List.foldl_cons, h2]
      simp only [eraseRecord, Table.getElem?_erase', byDevice_inj]
      by_cases hk : d = device ∧ t = tag c ∧ c = chunk
      · obtain ⟨rfl, rfl, rfl⟩ := hk
        simp
      · have hne : ¬(device = d ∧ tag chunk = t ∧ chunk = c) := by
          rintro ⟨rfl, rfl, rfl⟩
          exact hk ⟨rfl, rfl, rfl⟩
        have hmem : (c ∈ chunk :: rest ∧ d = device ∧ t = tag c) ↔
            (c ∈ rest ∧ d = device ∧ t = tag c) := by
          rw [List.mem_cons]
          tauto
        rw [if_neg hne, if_congr hmem rfl rfl]
    · have htally := Table.tally_erase (names d) l.holders (key chunk device)
      rw [names_key, decide_eq_false (Ne.symm hd)] at htally
      rw [List.foldl_cons, h3 d hd]
      simpa [eraseRecord] using htally

theorem OneRelation.forgetDevice (h : OneRelation tag l) (device : DeviceId) :
    OneRelation tag (l.forgetDevice tag device) := by
  obtain ⟨h1, h2, h3, h4⟩ := foldl_eraseRecord tag device (l.holdingsOf device)
    { l with
      holderCounts := l.holderCounts.erase device
      draining := l.draining.erase device }
  refine ⟨fun d t c => ?_, fun d => ?_⟩
  · rw [Ledger.forgetDevice, h1, h2]
    have hold := h.holdings d t c
    by_cases ht : t = tag c
    · subst ht
      simp only [if_true] at hold
      simp [hold]
    · simp only [if_neg ht] at hold
      simp [ht, hold]
  · rw [heldBy, Ledger.forgetDevice, h4]
    by_cases hd : device = d
    · subst hd
      rw [Table.getElem?_erase_self']
      refine (Table.tally_eq_zero fun k hk => ?_).symm
      have hname : k = key (ofLex k).1 device := by
        rw [← of_decide_eq_true hk]
        rfl
      rw [hname, h1]
      by_cases hm : (ofLex k).1 ∈ l.holdingsOf device
      · rw [if_pos ⟨hm, rfl⟩]
      · rw [if_neg fun hc => hm hc.1]
        rwa [h.mem_holdingsOf, Bool.not_eq_true, Option.isSome_eq_false_iff,
          Option.isNone_iff_eq_none] at hm
    · rw [Table.getElem?_erase_ne _ hd, h3 d (Ne.symm hd)]
      exact h.counts d

/-! ### Opening again -/

/-- Counting rows one by one counts them. -/
theorem getD_foldl_count {α : Type} (f : α → DeviceId) (d : DeviceId) : ∀ (rows : List α)
    (t : Table DeviceId ℕ),
    ((rows.foldl (fun t r => t.insert (f r) ((t[f r]?).getD 0 + 1)) t)[d]?).getD 0 =
      (t[d]?).getD 0 + rows.countP fun r => f r = d
  | [], t => by simp
  | r :: rest, t => by
    rw [List.foldl_cons, getD_foldl_count f d rest, Table.getElem?_insert', List.countP_cons]
    by_cases h : f r = d
    · subst h
      simp
      omega
    · simp [h]

/-- The rows of the one ordering are those of the other. -/
theorem OneRelation.toList_perm (h : OneRelation tag l) :
    (l.holdings.toList.map fun r => (key (ofLex (ofLex r.1).2).2 (ofLex r.1).1, r.2)).Perm
      l.holders.toList := by
  have hrow : ∀ r ∈ l.holdings.toList, (ofLex (ofLex r.1).2).1 = tag (ofLex (ofLex r.1).2).2 ∧
      l.holders[key (ofLex (ofLex r.1).2).2 (ofLex r.1).1]? = some r.2 := by
    intro r hr
    rw [Table.mem_toList] at hr
    have hold := h.holdings (ofLex r.1).1 (ofLex (ofLex r.1).2).1 (ofLex (ofLex r.1).2).2
    rw [show byDevice (ofLex r.1).1 (ofLex (ofLex r.1).2).1 (ofLex (ofLex r.1).2).2 = r.1 from rfl,
      hr] at hold
    split_ifs at hold with ht
    exact ⟨ht, hold.symm⟩
  refine (List.perm_ext_iff_of_nodup ?_ (Table.nodup_toList _)).mpr fun r => ?_
  · refine List.Nodup.map_on (fun a ha b hb hab => ?_) (Table.nodup_toList _)
    simp only [Prod.mk.injEq, key_inj] at hab
    obtain ⟨⟨hc, hd⟩, hs⟩ := hab
    have ht : (ofLex (ofLex a.1).2).1 = (ofLex (ofLex b.1).2).1 := by
      rw [(hrow a ha).1, (hrow b hb).1, hc]
    exact Prod.ext (Prod.ext hd (Prod.ext ht hc)) hs
  · rw [List.mem_map, Table.mem_toList]
    constructor
    · rintro ⟨a, ha, rfl⟩
      exact (hrow a ha).2
    · intro hr
      refine ⟨(byDevice (ofLex r.1).2 (tag (ofLex r.1).1) (ofLex r.1).1, r.2), ?_, rfl⟩
      rw [Table.mem_toList, h.holdings, if_pos rfl]
      exact hr

theorem OneRelation.buildHolderCountsIfMissing (h : OneRelation tag l) :
    OneRelation tag l.buildHolderCountsIfMissing := by
  unfold Ledger.buildHolderCountsIfMissing
  split_ifs
  · exact h
  · refine ⟨h.holdings, fun d => ?_⟩
    have hcount := h.toList_perm.countP_eq fun r => names d r.1
    rw [List.countP_map] at hcount
    rw [heldBy, getD_foldl_count, Std.ExtTreeMap.getElem?_empty]
    simp only [Option.getD_none, Nat.zero_add, Table.tally]
    exact hcount

/-- With one relation there is nothing to rebuild. -/
theorem OneRelation.rebuildHoldingsIfStale (h : OneRelation tag l) :
    l.rebuildHoldingsIfStale tag = l := by
  unfold Ledger.rebuildHoldingsIfStale
  by_cases hempty : l.holdings.isEmpty
  · have hperm := h.toList_perm
    rw [Std.ExtTreeMap.toList_eq_nil_iff.mpr (Std.ExtTreeMap.isEmpty_iff.mp hempty),
      List.map_nil] at hperm
    have hnone : l.holders = ∅ := Std.ExtTreeMap.toList_eq_nil_iff.mp hperm.nil_eq.symm
    rw [if_pos (Std.ExtTreeMap.isEmpty_iff.mpr hnone)]
  · rw [if_pos hempty, ite_self]

theorem OneRelation.reopen (h : OneRelation tag l) : OneRelation tag (l.reopen tag) := by
  rw [Ledger.reopen, h.rebuildHoldingsIfStale]
  exact h.buildHolderCountsIfMissing

end

end Ledger

end Itsanas
