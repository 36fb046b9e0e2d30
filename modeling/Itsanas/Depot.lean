/-
# A vault with its chunks

`itsanas-store/src/vault.rs`: what a host keeps for other accounts. Beside the chains of
`Vault` there are sealed chunks, one blob each, with an index of their sizes and running
totals, one over all owners and one per owner, and the chunks an owner has marked as
those it can spare. The index and the totals are what the pledge is held against; between
calls they agree with the blobs (`Depot.Ok`), and no call adds more to them than it
charges (`Depot.Ok.putChunk`, `Depot.Ok.putSegment`).

Bytes are counted in natural numbers: what is counted is on the disk.
-/
import Itsanas.Vault

namespace Itsanas

variable {K : Crypto}

/-- How many bytes a sealed segment body has. -/
class SealedLength (K : Crypto) where
  sealedLength : K.Sealed → ℕ

/-- Bytes of a number in the encoding of segments: seven bits each. -/
def varintLength (n : ℕ) : ℕ := Nat.log 128 n + 1

namespace SegmentEnvelope

variable [SealedLength K]

def bodyLength (e : SegmentEnvelope K) : ℕ := SealedLength.sealedLength e.sealedBody

/-- Bytes of an encoded envelope. Ids, the body and the signature have their length before
them. -/
def encodedLength (e : SegmentEnvelope K) : ℕ :=
  3 * 33 + varintLength e.firstSequence + varintLength e.lastSequence +
    (if e.previous.isSome then 34 else 1) + (varintLength e.bodyLength + e.bodyLength) + 65

theorem bodyLength_lt_encodedLength (e : SegmentEnvelope K) : e.bodyLength < e.encodedLength := by
  rw [encodedLength]
  omega

end SegmentEnvelope

/-- What a vault keeps. -/
structure Depot (K : Crypto) extends Vault K where
  blobs : Table (UserId ×ₗ ChunkId) Bytes
  /-- The sizes of the chunks. -/
  chunks : Table (UserId ×ₗ ChunkId) ℕ
  chunkBytes : ℕ
  ownerChunkBytes : Table UserId ℕ
  /-- Bytes of the segments of each chain. -/
  chainBytes : Table (UserId ×ₗ DeviceId) ℕ
  /-- When an owner marked a chunk as one it can spare. -/
  evictable : Table (UserId ×ₗ ChunkId) ℕ
  /-- The marks of an owner, oldest first. -/
  evictionOrder : Table (UserId ×ₗ ℕ ×ₗ ChunkId) Unit
  /-- The day an owner last marked something, and how many marks it made that day. -/
  evictQuota : Table UserId (ℕ × ℕ)

namespace Depot

def day : ℕ := 24 * 60 * 60

def markExpires : ℕ := 30 * day

def maxEvictablePerDay : ℕ := 4096

def maxEvictPerCall : ℕ := 256

def new : Depot K := ⟨.new, ∅, ∅, 0, ∅, ∅, ∅, ∅, ∅⟩

def chunkKey (owner : UserId) (chunk : ChunkId) : UserId ×ₗ ChunkId := toLex (owner, chunk)

def orderKey (owner : UserId) (at' : ℕ) (chunk : ChunkId) : UserId ×ₗ ℕ ×ₗ ChunkId :=
  toLex (owner, toLex (at', chunk))

/-- Whether a mark made at `at'` still stands. -/
def markStands (at' now : ℕ) : Bool := now - at' < markExpires

/-- Put `size` in the place of `old` in the totals. -/
def recount (v : Depot K) (owner : UserId) (old size : ℕ) : Depot K :=
  { v with
    chunkBytes := v.chunkBytes - old + size
    ownerChunkBytes :=
      v.ownerChunkBytes.insert owner ((v.ownerChunkBytes[owner]?).getD 0 - old + size) }

/-- Drop the mark on a chunk, if there is one. -/
def unmark (v : Depot K) (owner : UserId) (address : ChunkId) : Depot K :=
  match v.evictable[chunkKey owner address]? with
  | none => v
  | some at' =>
    { v with
      evictable := v.evictable.erase (chunkKey owner address)
      evictionOrder := v.evictionOrder.erase (orderKey owner at' address) }

/-- Accept a sealed chunk. Says whether it is new: bytes that are there stay, and it is
their size that is counted. -/
def putChunk (v : Depot K) (owner : UserId) (address : ChunkId) (sealed : Bytes) : Depot K × Bool :=
  let key := chunkKey owner address
  let held := (v.blobs[key]?).getD sealed
  let indexed : Depot K :=
    { v with
      blobs := v.blobs.insert key held
      chunks := v.chunks.insert key held.length }
  ((indexed.recount owner ((v.chunks[key]?).getD 0) held.length).unmark owner address,
    (v.blobs[key]?).isNone)

def getChunk (v : Depot K) (owner : UserId) (address : ChunkId) : Option Bytes :=
  v.blobs[chunkKey owner address]?

def hasChunk (v : Depot K) (owner : UserId) (address : ChunkId) : Bool :=
  (v.getChunk owner address).isSome

/-- Take a chunk out of the blobs, the index and the totals. -/
def dropChunk (v : Depot K) (owner : UserId) (address : ChunkId) : Depot K :=
  let key := chunkKey owner address
  let dropped : Depot K := { v with blobs := v.blobs.erase key, chunks := v.chunks.erase key }
  match v.chunks[key]? with
  | none => dropped
  | some old => dropped.recount owner old 0

/-- Drop a chunk. -/
def removeChunk (v : Depot K) (owner : UserId) (address : ChunkId) : Depot K :=
  (v.dropChunk owner address).unmark owner address

/-- The chunks held for an owner. -/
def chunksFor (v : Depot K) (owner : UserId) : List ChunkId :=
  v.chunks.toList.filterMap fun r => if (ofLex r.1).1 = owner then some (ofLex r.1).2 else none

/-- Drop all that is held for an owner: its chunks one by one, then every other row. -/
def forgetOwner (v : Depot K) (owner : UserId) : Depot K :=
  let v' := (v.chunksFor owner).foldl (fun v address => v.removeChunk owner address) v
  { v' with
    segments := v'.segments.filter fun key _ => (ofLex key).1 ≠ owner
    chainLengths := v'.chainLengths.filter fun key _ => (ofLex key).1 ≠ owner
    heads := v'.heads.filter fun key _ => (ofLex key).1 ≠ owner
    chainBytes := v'.chainBytes.filter fun key _ => (ofLex key).1 ≠ owner
    evictable := v'.evictable.filter fun key _ => (ofLex key).1 ≠ owner
    evictionOrder := v'.evictionOrder.filter fun key _ => (ofLex key).1 ≠ owner
    evictQuota := v'.evictQuota.erase owner }

/-- Mark one chunk, if it is held and the day's marks are not used up. Carries how many
were made today and how many of those asked for are marked. -/
def markOne (owner : UserId) (now : ℕ) (s : Depot K × ℕ × ℕ) (chunk : ChunkId) : Depot K × ℕ × ℕ :=
  let (v, made, marked) := s
  let key := chunkKey owner chunk
  if (v.evictable[key]?).isSome then (v, made, marked + 1)
  else if (v.chunks[key]?).isNone ∨ maxEvictablePerDay ≤ made then (v, made, marked)
  else
    ({ v with
        evictable := v.evictable.insert key now
        evictionOrder := v.evictionOrder.insert (orderKey owner now chunk) () }, made + 1, marked + 1)

/-- Mark chunks as those their owner can spare. Says how many are marked now. -/
def markEvictable (v : Depot K) (owner : UserId) (chunks : List ChunkId) (now : ℕ) : Depot K × ℕ :=
  let today := now / day
  -- a clock that steps back stays on the day it had reached
  let (day', made) :=
    match v.evictQuota[owner]? with
    | some (counted, made) => if today ≤ counted then (counted, made) else (today, 0)
    | none => (today, 0)
  let (v', made, marked) := (chunks.dedup.insertionSort (· ≤ ·)).foldl (markOne owner now) (v, made, 0)
  ({ v' with evictQuota := v'.evictQuota.insert owner (day', made) }, marked)

/-- Those of `chunks` with a standing mark. -/
def markedAmong (v : Depot K) (owner : UserId) (chunks : List ChunkId) (now : ℕ) : List ChunkId :=
  chunks.filter fun chunk => (v.evictable[chunkKey owner chunk]?).any (markStands · now)

/-- The marks to evict, oldest first, the expired ones met on the way, and the bytes the
former free. -/
def chooseEvictions (v : Depot K) (owner : UserId) (needed now : ℕ) :
    List (ℕ × ChunkId) → List (ℕ × ChunkId) → ℕ → List (ℕ × ChunkId) →
    List (ℕ × ChunkId) × List (ℕ × ChunkId) × ℕ
  | chosen, expired, room, [] => (chosen, expired, room)
  | chosen, expired, room, (at', chunk) :: rest =>
    if needed ≤ room ∨ maxEvictPerCall ≤ chosen.length + expired.length then (chosen, expired, room)
    else if markStands at' now then
      chooseEvictions v owner needed now (chosen ++ [(at', chunk)]) expired
        (room + (v.chunks[chunkKey owner chunk]?).getD 0) rest
    else chooseEvictions v owner needed now chosen (expired ++ [(at', chunk)]) room rest

/-- The marks of an owner, oldest first. -/
def marksOf (v : Depot K) (owner : UserId) : List (ℕ × ChunkId) :=
  v.evictionOrder.toList.filterMap fun r =>
    if (ofLex r.1).1 = owner then some (ofLex (ofLex r.1).2) else none

/-- Forget a mark. -/
def dropMark (owner : UserId) (v : Depot K) (mark : ℕ × ChunkId) : Depot K :=
  { v with
    evictable := v.evictable.erase (chunkKey owner mark.2)
    evictionOrder := v.evictionOrder.erase (orderKey owner mark.1 mark.2) }

/-- Remove marked chunks of `owner` until so many bytes are free, or none of them. Says how
many were freed. -/
def evictMarked (v : Depot K) (owner : UserId) (needed now : ℕ) : Depot K × ℕ :=
  if needed = 0 then (v, 0)
  else
    let (chosen, expired, room) := v.chooseEvictions owner needed now [] [] 0 (v.marksOf owner)
    let pruned := expired.foldl (dropMark owner) v
    if chosen.isEmpty ∨ room < needed then (pruned, 0)
    else
      chosen.foldl (fun s mark =>
          (dropMark owner (s.1.dropChunk owner mark.2) mark,
            s.2 + (s.1.chunks[chunkKey owner mark.2]?).getD 0))
        (pruned, 0)

section
variable [SealedLength K]

/-- Accept a segment, and charge its chain for the encoded envelope. -/
def putSegment (v : Depot K) (envelope : SegmentEnvelope K) : Depot K × Except StoreError Bool :=
  match v.toVault.putSegment envelope with
  | (chains, .ok true) =>
    let key := Vault.chainKey envelope.owner envelope.device
    ({ v with
        toVault := chains
        chainBytes := v.chainBytes.insert key ((v.chainBytes[key]?).getD 0 + envelope.encodedLength) },
      .ok true)
  | (_, result) => (v, result)

end

/-- Every byte held. -/
def heldBytes (v : Depot K) : ℕ := v.chunkBytes + v.chainBytes.weigh fun _ bytes => bytes

/-- What is held for one owner. -/
def heldBytesFor (v : Depot K) (owner : UserId) : ℕ :=
  (v.ownerChunkBytes[owner]?).getD 0 +
    v.chainBytes.weigh fun key bytes => if (ofLex key).1 = owner then bytes else 0

/-- The chunks a summary of what is held for `owner` is made of. -/
def summarised (v : Depot K) (owner : UserId) (now : ℕ) : List ChunkId :=
  v.chunks.toList.filterMap fun r =>
    if (ofLex r.1).1 = owner then
      if (v.evictable[r.1]?).any (markStands · now) then none else some (ofLex r.1).2
    else none

/-! ### Between the calls -/

/-- The sizes of the chunks of `owner`, together. -/
def sizesOf (owner : UserId) (chunks : Table (UserId ×ₗ ChunkId) ℕ) : ℕ :=
  Table.weigh (fun key size => if (ofLex key).1 = owner then size else 0) chunks

/-- The index has the sizes of the blobs, and the totals are sums over it. -/
structure Ok (v : Depot K) : Prop where
  sizes : ∀ key : UserId ×ₗ ChunkId, v.chunks[key]? = (v.blobs[key]?).map List.length
  total : v.chunkBytes = Table.weigh (fun _ size => size) v.chunks
  owners : ∀ owner : UserId, (v.ownerChunkBytes[owner]?).getD 0 = sizesOf owner v.chunks

variable {v v' : Depot K}

theorem new_ok : (new : Depot K).Ok where
  sizes _ := rfl
  total := (Table.weigh_empty _).symm
  owners _ := (Table.weigh_empty _).symm

/-- What the two have in common is all but the marks. -/
structure SameBytes (v v' : Depot K) : Prop where
  chains : v'.toVault = v.toVault
  blobs : v'.blobs = v.blobs
  chunks : v'.chunks = v.chunks
  total : v'.chunkBytes = v.chunkBytes
  owners : v'.ownerChunkBytes = v.ownerChunkBytes
  chainBytes : v'.chainBytes = v.chainBytes

theorem SameBytes.refl (v : Depot K) : SameBytes v v := ⟨rfl, rfl, rfl, rfl, rfl, rfl⟩

theorem SameBytes.trans {v'' : Depot K} (h : SameBytes v v')
    (h' : SameBytes v' v'') : SameBytes v v'' :=
  ⟨h'.chains.trans h.chains, h'.blobs.trans h.blobs, h'.chunks.trans h.chunks, h'.total.trans h.total,
    h'.owners.trans h.owners, h'.chainBytes.trans h.chainBytes⟩

theorem SameBytes.ok (hs : SameBytes v v') (h : v.Ok) : v'.Ok where
  sizes key := by rw [hs.chunks, hs.blobs, h.sizes]
  total := by rw [hs.total, hs.chunks, h.total]
  owners owner := by rw [hs.owners, h.owners, hs.chunks]

theorem SameBytes.heldBytes (hs : SameBytes v v') : v'.heldBytes = v.heldBytes := by
  rw [Depot.heldBytes, Depot.heldBytes, hs.total, hs.chainBytes]

theorem SameBytes.heldBytesFor (hs : SameBytes v v') (owner : UserId) :
    v'.heldBytesFor owner = v.heldBytesFor owner := by
  rw [Depot.heldBytesFor, Depot.heldBytesFor, hs.owners, hs.chainBytes]

theorem unmark_same (v : Depot K) (owner : UserId) (address : ChunkId) :
    SameBytes v (v.unmark owner address) := by
  unfold unmark
  split <;> exact ⟨rfl, rfl, rfl, rfl, rfl, rfl⟩

theorem markOne_same (owner : UserId) (now : ℕ) (s : Depot K × ℕ × ℕ) (chunk : ChunkId) :
    SameBytes s.1 (markOne owner now s chunk).1 := by
  unfold markOne
  dsimp only
  split_ifs <;> exact ⟨rfl, rfl, rfl, rfl, rfl, rfl⟩

/-- Marking moves no bytes. -/
theorem markEvictable_same (v : Depot K) (owner : UserId) (chunks : List ChunkId) (now : ℕ) :
    SameBytes v (v.markEvictable owner chunks now).1 := by
  have hfold : ∀ (chunks : List ChunkId) (s : Depot K × ℕ × ℕ),
      SameBytes s.1 (chunks.foldl (markOne owner now) s).1 := by
    intro chunks
    induction chunks with
    | nil => exact fun s => .refl s.1
    | cons chunk rest ih => exact fun s => (markOne_same owner now s chunk).trans (ih _)
  have hsame := hfold (chunks.dedup.insertionSort (· ≤ ·))
  unfold markEvictable
  cases v.evictQuota[owner]? with
  | none => exact (hsame (v, _, 0)).trans ⟨rfl, rfl, rfl, rfl, rfl, rfl⟩
  | some quota =>
    dsimp only
    split_ifs <;> exact (hsame (v, _, 0)).trans ⟨rfl, rfl, rfl, rfl, rfl, rfl⟩

/-! ### The totals follow the index -/

theorem sizesOf_insert (chunks : Table (UserId ×ₗ ChunkId) ℕ) (owner : UserId) (address : ChunkId)
    (size : ℕ) (o : UserId) :
    sizesOf o (chunks.insert (chunkKey owner address) size) +
        (if owner = o then (chunks[chunkKey owner address]?).getD 0 else 0) =
      sizesOf o chunks + if owner = o then size else 0 := by
  have hw :=
    Table.weigh_insert (fun (key : UserId ×ₗ ChunkId) size => if (ofLex key).1 = o then size else 0)
    chunks (chunkKey owner address) size
  have hkey : (ofLex (chunkKey owner address)).1 = owner := rfl
  rw [hkey] at hw
  rw [sizesOf, sizesOf, ← hw]
  cases chunks[chunkKey owner address]? with
  | none => simp
  | some old => rfl

theorem sizesOf_erase (chunks : Table (UserId ×ₗ ChunkId) ℕ) (owner : UserId) (address : ChunkId)
    (o : UserId) :
    sizesOf o (chunks.erase (chunkKey owner address)) +
        (if owner = o then (chunks[chunkKey owner address]?).getD 0 else 0) = sizesOf o chunks := by
  have hw :=
    Table.weigh_erase (fun (key : UserId ×ₗ ChunkId) size => if (ofLex key).1 = o then size else 0)
    chunks (chunkKey owner address)
  have hkey : (ofLex (chunkKey owner address)).1 = owner := rfl
  rw [hkey] at hw
  rw [sizesOf, sizesOf, ← hw]
  cases chunks[chunkKey owner address]? with
  | none => simp
  | some old => rfl

theorem total_erase_chunk (chunks : Table (UserId ×ₗ ChunkId) ℕ) (key : UserId ×ₗ ChunkId) :
    Table.weigh (fun _ size => size) (chunks.erase key) + (chunks[key]?).getD 0 =
      Table.weigh (fun _ size => size) chunks := by
  have hw := Table.weigh_erase (fun (_ : UserId ×ₗ ChunkId) size => size) chunks key
  rw [← hw]
  cases chunks[key]? <;> rfl

theorem total_insert_chunk (chunks : Table (UserId ×ₗ ChunkId) ℕ) (key : UserId ×ₗ ChunkId)
    (size : ℕ) :
    Table.weigh (fun _ size => size) (chunks.insert key size) + (chunks[key]?).getD 0 =
      Table.weigh (fun _ size => size) chunks + size := by
  have hw := Table.weigh_insert (fun (_ : UserId ×ₗ ChunkId) size => size) chunks key size
  rw [← hw]
  cases chunks[key]? <;> rfl

/-- The totals are sums over the index. -/
structure Totalled (v : Depot K) : Prop where
  total : v.chunkBytes = Table.weigh (fun _ size => size) v.chunks
  owners : ∀ owner : UserId, (v.ownerChunkBytes[owner]?).getD 0 = sizesOf owner v.chunks

theorem Ok.totalled (h : v.Ok) : v.Totalled := ⟨h.total, h.owners⟩

/-- A new index, with the totals moved along. -/
theorem Totalled.recounted (h : v.Totalled) {owner : UserId} {address : ChunkId} {old size : ℕ}
    (hold : old = (v.chunks[chunkKey owner address]?).getD 0)
    (blobs : Table (UserId ×ₗ ChunkId) Bytes) {chunks : Table (UserId ×ₗ ChunkId) ℕ}
    (htotal : Table.weigh (fun _ size => size) chunks + old =
      Table.weigh (fun _ size => size) v.chunks + size)
    (howners : ∀ o : UserId, sizesOf o chunks + (if owner = o then old else 0) =
      sizesOf o v.chunks + if owner = o then size else 0) :
    (({ v with blobs := blobs, chunks := chunks } : Depot K).recount owner old size).Totalled := by
  have hsplit := total_erase_chunk v.chunks (chunkKey owner address)
  have hone := sizesOf_erase v.chunks owner address owner
  rw [if_pos rfl] at hone
  refine ⟨?_, fun o => ?_⟩
  · show v.chunkBytes - old + size = Table.weigh (fun _ size => size) chunks
    rw [h.total]
    omega
  · show ((v.ownerChunkBytes.insert owner
      ((v.ownerChunkBytes[owner]?).getD 0 - old + size))[o]?).getD 0 =
      sizesOf o chunks
    have ho := howners o
    rw [Table.getElem?_insert']
    by_cases heq : owner = o
    · subst heq
      rw [if_pos rfl, if_pos rfl] at ho
      rw [if_pos rfl, Option.getD_some, h.owners]
      omega
    · rw [if_neg heq, if_neg heq] at ho
      rw [if_neg heq, h.owners]
      omega

/-- A new table of blobs and its index, with the totals moved along. -/
theorem Ok.recounted (h : v.Ok) {owner : UserId} {address : ChunkId} {old size : ℕ}
    (hold : old = (v.chunks[chunkKey owner address]?).getD 0)
    {blobs : Table (UserId ×ₗ ChunkId) Bytes} {chunks : Table (UserId ×ₗ ChunkId) ℕ}
    (hsizes : ∀ key : UserId ×ₗ ChunkId, chunks[key]? = (blobs[key]?).map List.length)
    (htotal : Table.weigh (fun _ size => size) chunks + old =
      Table.weigh (fun _ size => size) v.chunks + size)
    (howners : ∀ o : UserId, sizesOf o chunks + (if owner = o then old else 0) =
      sizesOf o v.chunks + if owner = o then size else 0) :
    (({ v with blobs := blobs, chunks := chunks } : Depot K).recount owner old size).Ok :=
  have htotalled := h.totalled.recounted hold blobs htotal howners
  ⟨hsizes, htotalled.total, htotalled.owners⟩

theorem Ok.heldBytes_eq (h : v.Ok) :
    v.heldBytes = Table.weigh (fun _ size => size) v.chunks +
      v.chainBytes.weigh fun _ bytes => bytes := by
  rw [heldBytes, h.total]

theorem Ok.heldBytesFor_eq (h : v.Ok) (owner : UserId) :
    v.heldBytesFor owner = sizesOf owner v.chunks +
    v.chainBytes.weigh fun key bytes => if (ofLex key).1 = owner then bytes else 0 := by
  rw [heldBytesFor, h.owners]

theorem blobs_putChunk (v : Depot K) (owner : UserId) (address : ChunkId) (sealed : Bytes) :
    (v.putChunk owner address sealed).1.blobs =
      v.blobs.insert (chunkKey owner address) ((v.blobs[chunkKey owner address]?).getD sealed) :=
  (unmark_same _ owner address).blobs

/-- **Storing a chunk** charges for new bytes, and for nothing when they are there. -/
theorem Ok.putChunk (h : v.Ok) (owner : UserId) (address : ChunkId) (sealed : Bytes) :
    (v.putChunk owner address sealed).1.Ok ∧
      (v.putChunk owner address sealed).1.heldBytes =
        v.heldBytes + (if (v.putChunk owner address sealed).2 then sealed.length else 0) ∧
      ∀ o, (v.putChunk owner address sealed).1.heldBytesFor o =
        v.heldBytesFor o +
          if owner = o ∧ (v.putChunk owner address sealed).2 = true then sealed.length else 0 := by
  have hsame := unmark_same
    (({ v with
        blobs := v.blobs.insert (chunkKey owner address)
          ((v.blobs[chunkKey owner address]?).getD sealed)
        chunks := v.chunks.insert (chunkKey owner address)
          ((v.blobs[chunkKey owner address]?).getD sealed).length } : Depot K).recount owner
      ((v.chunks[chunkKey owner address]?).getD 0)
        ((v.blobs[chunkKey owner address]?).getD sealed).length)
    owner address
  have hok : (v.putChunk owner address sealed).1.Ok := by
    refine hsame.ok (h.recounted rfl (fun key => ?_) (total_insert_chunk _ _ _)
      (sizesOf_insert _ _ _ _))
    rw [Table.getElem?_insert', Table.getElem?_insert']
    split_ifs
    · rfl
    · exact h.sizes key
  have hchunks : (v.putChunk owner address sealed).1.chunks = v.chunks.insert (chunkKey owner address)
      ((v.blobs[chunkKey owner address]?).getD sealed).length := hsame.chunks
  have hchain : (v.putChunk owner address sealed).1.chainBytes = v.chainBytes := hsame.chainBytes
  have htotal := total_insert_chunk v.chunks (chunkKey owner address)
    ((v.blobs[chunkKey owner address]?).getD sealed).length
  have howners :=
    sizesOf_insert v.chunks owner address ((v.blobs[chunkKey owner address]?).getD sealed).length
  have hnew : (v.putChunk owner address sealed).2 = (v.blobs[chunkKey owner address]?).isNone := rfl
  have hsize := h.sizes (chunkKey owner address)
  rw [← hchunks] at htotal howners
  refine ⟨hok, ?_, fun o => ?_⟩
  · rw [hok.heldBytes_eq, h.heldBytes_eq, hchain, hnew]
    cases hb : v.blobs[chunkKey owner address]? with
    | none =>
      rw [hsize, hb] at htotal
      simp only [Option.map_none, Option.getD_none] at htotal
      simp only [Option.isNone_none, if_true]
      omega
    | some b =>
      rw [hsize, hb] at htotal
      simp only [Option.map_some, Option.getD_some] at htotal
      simp only [Option.isNone_some, Bool.false_eq_true, if_false]
      omega
  · have ho := howners o
    rw [hok.heldBytesFor_eq, h.heldBytesFor_eq, hchain, hnew]
    by_cases heq : owner = o
    · subst heq
      rw [if_pos rfl, if_pos rfl] at ho
      cases hb : v.blobs[chunkKey owner address]? with
      | none =>
        rw [hsize, hb] at ho
        simp only [Option.map_none, Option.getD_none] at ho
        simp only [Option.isNone_none, and_self, if_true]
        omega
      | some b =>
        rw [hsize, hb] at ho
        simp only [Option.map_some, Option.getD_some] at ho
        simp only [Option.isNone_some, Bool.false_eq_true, and_false, if_false]
        omega
    · rw [if_neg heq, if_neg heq] at ho
      rw [if_neg (fun hand => heq hand.1)]
      omega

/-- A step that keeps the index right, leaves the chains alone and adds nothing. -/
structure Shrinks (v v' : Depot K) : Prop where
  ok : v'.Ok
  chains : v'.toVault = v.toVault
  blobs : ∀ key : UserId ×ₗ ChunkId, v.blobs[key]? = none → v'.blobs[key]? = none
  held : v'.heldBytes ≤ v.heldBytes
  heldFor : ∀ o, v'.heldBytesFor o ≤ v.heldBytesFor o

theorem Shrinks.trans {v'' : Depot K} (h : Shrinks v v') (h' : Shrinks v' v'') : Shrinks v v'' :=
  ⟨h'.ok, h'.chains.trans h.chains, fun key hkey => h'.blobs key (h.blobs key hkey),
    h'.held.trans h.held,
    fun o => (h'.heldFor o).trans (h.heldFor o)⟩

theorem SameBytes.shrinks (hs : SameBytes v v') (h : v.Ok) : Shrinks v v' :=
  ⟨hs.ok h, hs.chains, fun key hkey => by rw [hs.blobs, hkey], hs.heldBytes.le,
    fun o => (hs.heldBytesFor o).le⟩

theorem Ok.dropChunk (h : v.Ok) (owner : UserId) (address : ChunkId) :
    Shrinks v (v.dropChunk owner address) := by
  have hsizes : ∀ key : UserId ×ₗ ChunkId, (v.chunks.erase (chunkKey owner address))[key]? =
      ((v.blobs.erase (chunkKey owner address))[key]?).map List.length := by
    intro key
    rw [Table.getElem?_erase', Table.getElem?_erase']
    split_ifs
    · rfl
    · exact h.sizes key
  have htotal := total_erase_chunk v.chunks (chunkKey owner address)
  have howners := sizesOf_erase v.chunks owner address
  have hok : (v.dropChunk owner address).Ok := by
    rw [Depot.dropChunk]
    cases hrow : v.chunks[chunkKey owner address]? with
    | none =>
      rw [hrow] at htotal howners
      refine ⟨hsizes, ?_, fun o => ?_⟩
      · show v.chunkBytes = _
        rw [h.total]
        exact htotal.symm
      · have ho := howners o
        show (v.ownerChunkBytes[o]?).getD 0 = _
        rw [h.owners, ← ho]
        simp
    | some old =>
      rw [hrow] at htotal howners
      refine h.recounted (by rw [hrow]; rfl) hsizes htotal fun o => ?_
      rw [ite_self, Nat.add_zero]
      exact howners o
  have hchunks : (v.dropChunk owner address).chunks = v.chunks.erase (chunkKey owner address) := by
    rw [Depot.dropChunk]
    cases v.chunks[chunkKey owner address]? <;> rfl
  have hrest : (v.dropChunk owner address).toVault = v.toVault ∧
      (v.dropChunk owner address).chainBytes = v.chainBytes := by
    rw [Depot.dropChunk]
    cases v.chunks[chunkKey owner address]? <;> exact ⟨rfl, rfl⟩
  have hblobs : (v.dropChunk owner address).blobs = v.blobs.erase (chunkKey owner address) := by
    rw [Depot.dropChunk]
    cases v.chunks[chunkKey owner address]? <;> rfl
  refine ⟨hok, hrest.1, fun key hkey => ?_, ?_, fun o => ?_⟩
  · rw [hblobs, Table.getElem?_erase', hkey, ite_self]
  · rw [hok.heldBytes_eq, h.heldBytes_eq, hchunks, hrest.2]
    omega
  · have ho := howners o
    rw [hok.heldBytesFor_eq, h.heldBytesFor_eq, hchunks, hrest.2]
    omega

theorem Ok.removeChunk (h : v.Ok) (owner : UserId) (address : ChunkId) :
    Shrinks v (v.removeChunk owner address) :=
  (h.dropChunk owner address).trans
    ((unmark_same _ owner address).shrinks (h.dropChunk owner address).ok)

theorem dropMark_same (owner : UserId) (v : Depot K) (mark : ℕ × ChunkId) :
    SameBytes v (dropMark owner v mark) := ⟨rfl, rfl, rfl, rfl, rfl, rfl⟩

theorem dropMarks_same (owner : UserId) (marks : List (ℕ × ChunkId)) (v : Depot K) :
    SameBytes v (marks.foldl (dropMark owner) v) := by
  induction marks generalizing v with
  | nil => exact .refl v
  | cons mark rest ih => exact (dropMark_same owner v mark).trans (ih _)

/-- Making room takes bytes away, if anything. -/
theorem Ok.evictMarked (h : v.Ok) (owner : UserId) (needed now : ℕ) :
    Shrinks v (v.evictMarked owner needed now).1 := by
  have hevict : ∀ (marks : List (ℕ × ChunkId)) (s : Depot K × ℕ), s.1.Ok →
      Shrinks s.1 (marks.foldl (fun s mark =>
        (dropMark owner (s.1.dropChunk owner mark.2) mark,
          s.2 + (s.1.chunks[chunkKey owner mark.2]?).getD 0)) s).1 := by
    intro marks
    induction marks with
    | nil => exact fun s hs => (SameBytes.refl s.1).shrinks hs
    | cons mark rest ih =>
      intro s hs
      have hdrop := hs.dropChunk owner mark.2
      have hone := hdrop.trans ((dropMark_same owner _ mark).shrinks hdrop.ok)
      exact hone.trans (ih (_, _) hone.ok)
  have hsame := (SameBytes.refl v).shrinks h
  rw [Depot.evictMarked]
  split_ifs with hzero
  · exact hsame
  · generalize v.chooseEvictions owner needed now [] [] 0 (v.marksOf owner) = choice
    obtain ⟨chosen, expired, room⟩ := choice
    dsimp only
    have hpruned := (dropMarks_same owner expired v).shrinks h
    split_ifs
    · exact hpruned
    · exact hpruned.trans (hevict chosen (_, 0) hpruned.ok)

section
variable [SealedLength K]

theorem weigh_charged (chainBytes : Table (UserId ×ₗ DeviceId) ℕ) (key : UserId ×ₗ DeviceId)
    (f : UserId ×ₗ DeviceId → ℕ → ℕ) (hf : ∀ a b, f key (a + b) = f key a + f key b)
    (hzero : f key 0 = 0) (more : ℕ) :
    Table.weigh f (chainBytes.insert key ((chainBytes[key]?).getD 0 + more)) =
      Table.weigh f chainBytes + f key more := by
  have hw := Table.weigh_insert f chainBytes key ((chainBytes[key]?).getD 0 + more)
  cases hrow : chainBytes[key]? with
  | none =>
    rw [hrow, Option.getD_none, hf, Option.elim_none, hzero] at hw
    rw [Option.getD_none]
    omega
  | some old =>
    rw [hrow, Option.getD_some, hf, Option.elim_some] at hw
    rw [Option.getD_some]
    omega

/-- **Storing a segment** charges for its encoding. -/
theorem Ok.putSegment (h : v.Ok) (envelope : SegmentEnvelope K) :
    (v.putSegment envelope).1.Ok ∧
      (((v.putSegment envelope).1 = v ∧ (v.putSegment envelope).2 ≠ .ok true) ∨
        (v.putSegment envelope).2 = .ok true ∧
        (v.putSegment envelope).1.heldBytes = v.heldBytes + envelope.encodedLength ∧
        ∀ o, (v.putSegment envelope).1.heldBytesFor o =
          v.heldBytesFor o + if envelope.owner = o then envelope.encodedLength else 0) := by
  have hkey : (ofLex (Vault.chainKey envelope.owner envelope.device)).1 = envelope.owner := rfl
  rw [Depot.putSegment]
  split
  · refine ⟨⟨h.sizes, h.total, h.owners⟩, .inr ⟨rfl, ?_, fun o => ?_⟩⟩
    · show v.chunkBytes + Table.weigh _ (v.chainBytes.insert _ _) = _
      rw [weigh_charged v.chainBytes _ (fun _ bytes => bytes) (fun _ _ => rfl) rfl, heldBytes]
      omega
    · show (v.ownerChunkBytes[o]?).getD 0 + Table.weigh _ (v.chainBytes.insert _ _) = _
      rw [weigh_charged v.chainBytes _ (fun key bytes => if (ofLex key).1 = o then bytes else 0)
        (fun a b => by split_ifs <;> rfl) (by rw [ite_self]), hkey, heldBytesFor]
      omega
  · rename_i chains result hno hput
    exact ⟨h, .inl ⟨rfl, hno⟩⟩

end

end Depot

end Itsanas
