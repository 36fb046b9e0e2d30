/-
# What the index does to the ledger

`itsanas-store/src/index.rs` and `index/placement.rs`: the operations of the index that
record, withdraw and read what other devices hold. A withdrawn record also queues its
chunk as short, and so does a device that starts draining or is paused, for the first
`triggerLimit` chunks it is recorded as holding.

However these operations follow one another, and whatever else is done to the index in
between, the ledger stays one relation.
-/
import Itsanas.Index

namespace Itsanas

/-- A chunk with fewer copies than wanted. -/
structure AtRisk where
  chunk : ChunkId
  heldBy : ℕ
  target : ℕ
  deriving DecidableEq

namespace Ledger

/-- The devices whose record of `chunk` counts as a copy at `now`: confirmed lately, and
not by a device that is draining. -/
def copies (l : Ledger) (chunk : ChunkId) (now : ℕ) : List DeviceId :=
  ((l.holdersOf chunk).filter fun r => ¬l.drainingAt r.1 now ∧ now - liveFor ≤ r.2).map Prod.fst

/-- The audit record of `device`. -/
def reliabilityOf (l : Ledger) (device : DeviceId) : Reliability :=
  (l.reliability[device]?).getD .new

end Ledger

namespace Index

variable {K : Crypto}

/-- Most of a device's records one trigger queues. -/
def triggerLimit : ℕ := 4096

/-- Record many acknowledgements. -/
def recordHolders (ix : Index K) (chunks : List ChunkId) (device : DeviceId) (now : ℕ) : Index K :=
  { ix with ledger := ix.ledger.recordHolders K.auditTag chunks device now }

/-- Record chunks `device` has just accepted. -/
def recordStored (ix : Index K) (chunks : List ChunkId) (device : DeviceId) (now : ℕ) : Index K :=
  { ix with ledger := ix.ledger.recordStored K.auditTag chunks device now }

/-- Drop the record that `device` holds `chunk`. If there was one, the chunk may now be
short. -/
def forgetHolder (ix : Index K) (chunk : ChunkId) (device : DeviceId) (now : ℕ) : Index K :=
  { ix with
    ledger := ix.ledger.dropRecord K.auditTag chunk device
    tree :=
      if (ix.ledger.holders[Ledger.key chunk device]?).isSome then ix.tree.enqueueShort [chunk] now
      else ix.tree }

/-- Drop many records of one device. -/
def forgetHolders (ix : Index K) (chunks : List ChunkId) (device : DeviceId) (now : ℕ) : Index K :=
  chunks.foldl (fun ix chunk => ix.forgetHolder chunk device now) ix

/-- Drop every record naming `device`. Says how many there were. -/
def forgetDevice (ix : Index K) (device : DeviceId) (now : ℕ) : Index K × ℕ :=
  let doomed := ix.ledger.holdingsOf device
  ({ ix with
      ledger := ix.ledger.forgetDevice K.auditTag device
      tree := ix.tree.enqueueShort doomed now }, doomed.length)

/-- Queue what `device` is recorded as holding, up to `triggerLimit`. -/
def enqueueDevice (ix : Index K) (device : DeviceId) (now : ℕ) : Index K :=
  { ix with
    tree := ix.tree.enqueueShort ((ix.ledger.holdingsOf device).take triggerLimit) now }

/-- Record the outcome of one audit of `device`. A host that is now paused has its chunks
queued. -/
def noteAudit (ix : Index K) (device : DeviceId) (passed : Bool) (now : ℕ) : Index K × Reliability :=
  let before := ix.ledger.reliabilityOf device
  let record := if passed then before.passedOne else before.failedOne now
  let noted : Index K :=
    { ix with
      ledger :=
        { ix.ledger with
          reliability := ix.ledger.reliability.insert device record
          deviceSeen := ix.ledger.deviceSeen.insert device now
          devicePassed :=
            if passed then ix.ledger.devicePassed.insert device now else ix.ledger.devicePassed } }
  (if record.paused ∧ ¬before.paused then noted.enqueueDevice device now else noted, record)

/-- Record that `device` answered something. `marks` is whether its uptime ring, which is not in the
ledger, has this hour still to be marked: with that to write the stamp is written as well. -/
def noteSeen (ix : Index K) (device : DeviceId) (now : ℕ) (marks : Bool) : Index K :=
  if ix.ledger.seenWithinStep device now && !marks then ix
  else { ix with ledger := { ix.ledger with deviceSeen := ix.ledger.deviceSeen.insert device now } }

/-- `device` says it is draining until `ends`. It is believed if it holds something, and
not again until some time after the last drain. -/
def noteDraining (ix : Index K) (device : DeviceId) (ends now : ℕ) : Index K × Bool :=
  let ends := min ends (saturatingAdd now Ledger.maxDrain)
  let holds := (ix.ledger.holderCounts[device]?).any fun count => 0 < count
  let cooling := (ix.ledger.draining[device]?).any fun ends => now < saturatingAdd ends Ledger.maxDrain
  if !holds || cooling then (ix, false)
  else
    let granted : Index K :=
      { ix with ledger := { ix.ledger with draining := ix.ledger.draining.insert device ends } }
    (granted.enqueueDevice device now, true)

/-- Live chunks held by fewer than `target` devices, this one included, worst first. -/
def underReplicated (ix : Index K) (target now : ℕ) : List AtRisk :=
  (ix.tree.chunkRefs.toList.filterMap fun r =>
    let heldBy := (ix.ledger.copies r.1 now).length + 1
    if r.2 = 0 then none
    else if heldBy < target then some ⟨r.1, heldBy, target⟩
    else none).insertionSort fun a b => toLex (a.heldBy, a.chunk) ≤ toLex (b.heldBy, b.chunk)

/-! ### One relation, whatever is done -/

/-- What may be done to the ledger, and `files` for anything done to the file tables
beside it. -/
inductive LedgerOp
  | recordHolders (chunks : List ChunkId) (device : DeviceId) (now : ℕ)
  | recordStored (chunks : List ChunkId) (device : DeviceId) (now : ℕ)
  | forgetHolder (chunk : ChunkId) (device : DeviceId) (now : ℕ)
  | forgetHolders (chunks : List ChunkId) (device : DeviceId) (now : ℕ)
  | forgetDevice (device : DeviceId) (now : ℕ)
  | forgetChunk (chunk : ChunkId)
  | releaseChunk (chunk : ChunkId)
  | noteAudit (device : DeviceId) (passed : Bool) (now : ℕ)
  | noteSeen (device : DeviceId) (now : ℕ) (marks : Bool)
  | noteDraining (device : DeviceId) (ends now : ℕ)
  | files (tree : FileTables)
  | reopen

def LedgerOp.apply (ix : Index K) : LedgerOp → Index K
  | .recordHolders chunks device now => ix.recordHolders chunks device now
  | .recordStored chunks device now => ix.recordStored chunks device now
  | .forgetHolder chunk device now => ix.forgetHolder chunk device now
  | .forgetHolders chunks device now => ix.forgetHolders chunks device now
  | .forgetDevice device now => (ix.forgetDevice device now).1
  | .forgetChunk chunk => ix.forgetChunk chunk
  | .releaseChunk chunk => ix.releaseChunk chunk
  | .noteAudit device passed now => (ix.noteAudit device passed now).1
  | .noteSeen device now marks => ix.noteSeen device now marks
  | .noteDraining device ends now => (ix.noteDraining device ends now).1
  | .files tree => { ix with tree := tree }
  | .reopen => ix.reopen

/-- The index after a sequence of operations. -/
def ledgerRun (ix : Index K) (ops : List LedgerOp) : Index K := ops.foldl LedgerOp.apply ix

/-- The ledger of the index is one relation. -/
def OneRelation (ix : Index K) : Prop := ix.ledger.OneRelation K.auditTag

section
variable {ix : Index K}

theorem OneRelation.forgetHolders (h : ix.OneRelation) (device : DeviceId) (now : ℕ) :
    ∀ chunks : List ChunkId, (ix.forgetHolders chunks device now).OneRelation := by
  intro chunks
  induction chunks generalizing ix with
  | nil => exact h
  | cons chunk rest ih =>
    have hone : (ix.forgetHolder chunk device now).OneRelation :=
      Ledger.OneRelation.dropRecord h chunk device
    exact ih hone

theorem OneRelation.noteAudit (h : ix.OneRelation) (device : DeviceId) (passed : Bool) (now : ℕ) :
    (ix.noteAudit device passed now).1.OneRelation := by
  unfold Index.noteAudit
  dsimp only
  split_ifs <;> exact h.congr rfl rfl rfl

theorem OneRelation.noteDraining (h : ix.OneRelation) (device : DeviceId) (ends now : ℕ) :
    (ix.noteDraining device ends now).1.OneRelation := by
  unfold Index.noteDraining
  dsimp only
  split_ifs
  · exact h
  · exact h.congr rfl rfl rfl

/-- Every operation keeps the ledger one relation. -/
theorem OneRelation.apply (h : ix.OneRelation) (op : LedgerOp) : (op.apply ix).OneRelation := by
  cases op with
  | recordHolders chunks device now => exact Ledger.OneRelation.recordHolders h chunks device now
  | recordStored chunks device now => exact Ledger.OneRelation.recordStored h chunks device now
  | forgetHolder chunk device now => exact Ledger.OneRelation.dropRecord h chunk device
  | forgetHolders chunks device now => exact h.forgetHolders device now chunks
  | forgetDevice device now => exact Ledger.OneRelation.forgetDevice h device
  | forgetChunk chunk =>
    have hforgot := Ledger.OneRelation.forgetHoldersOf h chunk
    exact hforgot.congr rfl rfl rfl
  | releaseChunk chunk => exact h.congr rfl rfl rfl
  | noteAudit device passed now => exact h.noteAudit device passed now
  | noteSeen device now marks =>
    show (ix.noteSeen device now marks).OneRelation
    unfold Index.noteSeen
    split_ifs
    · exact h
    · exact h.congr rfl rfl rfl
  | noteDraining device ends now => exact h.noteDraining device ends now
  | files tree => exact h
  | reopen => exact Ledger.OneRelation.reopen h

end

theorem ledgerRun_oneRelation (ops : List LedgerOp) : (ledgerRun (K := K) .new ops).OneRelation := by
  refine List.foldlRecOn (motive := OneRelation) ops LedgerOp.apply Ledger.new_oneRelation ?_
  exact fun ix h op _ => h.apply op

/-- **The ledger is one relation.** After any operations, from a new index: a pair has a
row in the ordering by device exactly if it has one by chunk, with the same stamp and
under the tag of its chunk, and the count of each device is the number of pairs that name
it. -/
theorem ledger_one_relation (ops : List LedgerOp) :
    let l := (ledgerRun (K := K) .new ops).ledger
    (∀ chunk device tag stamp, l.holdings[Ledger.byDevice device tag chunk]? = some stamp ↔
      tag = K.auditTag chunk ∧ l.holders[Ledger.key chunk device]? = some stamp) ∧
    ∀ device, (l.holderCounts[device]?).getD 0 =
      (l.holders.toList.filter fun r => (ofLex r.1).2 = device).length := by
  intro l
  have h : l.OneRelation K.auditTag := ledgerRun_oneRelation ops
  refine ⟨fun chunk device tag stamp => ?_, fun device => ?_⟩
  · rw [h.holdings]
    by_cases ht : tag = K.auditTag chunk
    · simp [ht]
    · simp [ht]
  · rw [← List.countP_eq_length_filter]
    exact h.counts device

end Index

end Itsanas
