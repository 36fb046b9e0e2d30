/-
# The operation log

`itsanas-store/src/oplog.rs`: what a file looks like at one point in time, the
operations a device logs, and the signed segments it batches them into. A
segment's body is sealed and its envelope is plain and signed; a chain is
checked link by link (`validateChain`), and a body is believed only where it
agrees with its envelope (`SegmentEnvelope.openBody`).

The ciphers, the signatures and the hash come from other crates: `Crypto` is
what this code asks of them, with the round trips it relies on.
-/
import Itsanas.Path

namespace Itsanas

/-- Bytes, sealed or not. -/
abbrev Bytes : Type := List UInt8

/-- What one file looks like at one point in time. -/
structure FileEntry where
  size : ℕ
  modifiedUnix : ℕ
  contentHash : Id
  chunks : List ChunkId
  version : VersionVector
  author : DeviceId
  deriving DecidableEq

/-- The pair identifying this version for tie-breaking. -/
def FileEntry.authorship (e : FileEntry) : DeviceId × ℕ := (e.author, e.version.get e.author)

/-- The record left behind by a delete. -/
structure Tombstone where
  version : VersionVector
  removedUnix : ℕ
  author : DeviceId
  deriving DecidableEq

/-- A single change to the file tree. -/
inductive Operation
  | upsert (path : Path) (entry : FileEntry)
  | remove (path : Path) (version : VersionVector)
  deriving DecidableEq

namespace Operation

/-- The version vector this operation stamps onto its path. -/
def version : Operation → VersionVector
  | upsert _ entry => entry.version
  | remove _ version => version

/-- The path this operation affects. -/
def path : Operation → Path
  | upsert path _ => path
  | remove path _ => path

end Operation

/-- One entry in a device's log. -/
structure LogEntry where
  sequence : ℕ
  recordedUnix : ℕ
  operation : Operation
  deriving DecidableEq

/-- What a device signs of a segment: the identifiers, the range, the link and
the sealed body. -/
structure SigningPayload (Sealed : Type) where
  segmentId : ObjectId
  owner : UserId
  device : DeviceId
  firstSequence : ℕ
  lastSequence : ℕ
  previous : Option ObjectId
  sealedBody : Sealed
  deriving DecidableEq

/-- What this code asks of the cryptographic crates. A chunk's address is
derived from its plaintext and its sealing is deterministic; a segment's body
is sealed under its owner's log root and its own address. -/
structure Crypto where
  /-- Sealed segment bodies. -/
  Sealed : Type
  /-- Device signatures. -/
  Signature : Type
  chunkId : Bytes → ChunkId
  sealChunk : Bytes → Bytes
  openChunk : ChunkId → Bytes → Option Bytes
  /-- Bytes a sealed chunk takes over its plaintext. -/
  deterministicOverhead : ℕ
  contentHash : Bytes → Id
  /-- Where a chunk stands in this account's audit order. -/
  auditTag : ChunkId → AuditTag
  sealRandom : UserId → ObjectId → List LogEntry → Sealed
  openRandom : UserId → ObjectId → Sealed → Option (List LogEntry)
  sign : DeviceId → SigningPayload Sealed → Signature
  verify : DeviceId → SigningPayload Sealed → Signature → Bool
  openChunk_sealChunk : ∀ x, openChunk (chunkId x) (sealChunk x) = some x
  openRandom_sealRandom : ∀ owner id entries,
    openRandom owner id (sealRandom owner id entries) = some entries
  verify_sign : ∀ device payload, verify device payload (sign device payload) = true

/-- An optional number as the source prints it. -/
def debugOption : Option ℕ → String
  | some n => s!"Some({n})"
  | none => "None"

variable {K : Crypto}

/-- The plaintext, signed wrapper a host sees and can order. -/
structure SegmentEnvelope (K : Crypto) where
  segmentId : ObjectId
  owner : UserId
  device : DeviceId
  firstSequence : ℕ
  lastSequence : ℕ
  previous : Option ObjectId
  sealedBody : K.Sealed
  signature : K.Signature

namespace SegmentEnvelope

def signingPayload (e : SegmentEnvelope K) : SigningPayload K.Sealed :=
  ⟨e.segmentId, e.owner, e.device, e.firstSequence, e.lastSequence, e.previous, e.sealedBody⟩

/-- Seal, sign and wrap a batch of entries. `segmentId` is the random id drawn
for it. -/
def create (owner : UserId) (device : DeviceId) (previous : Option ObjectId) (segmentId : ObjectId)
    (entries : List LogEntry) : Except StoreError (SegmentEnvelope K) :=
  match entries.head?, entries.getLast? with
  | some first, some last =>
    if last.sequence < first.sequence then
      .error (.corrupt "segment entries are not in ascending sequence order")
    else
      let sealedBody := K.sealRandom owner segmentId entries
      .ok ⟨segmentId, owner, device, first.sequence, last.sequence, previous, sealedBody,
        K.sign device
          ⟨segmentId, owner, device, first.sequence, last.sequence, previous, sealedBody⟩⟩
  | _, _ => .error (.corrupt "refusing to create an empty log segment")

/-- Check the envelope signature against the device it claims to come from. -/
def verifySignature (e : SegmentEnvelope K) : Except StoreError Unit :=
  if K.verify e.device e.signingPayload e.signature then .ok ()
  else .error (.segmentSignature (short e.segmentId))

/-- What an envelope that disagrees with its body is refused with. -/
def rangeText (e : SegmentEnvelope K) (entries : List LogEntry) : String :=
  let id := String.ofList (short e.segmentId)
  let first := debugOption (entries.head?.map LogEntry.sequence)
  let last := debugOption (entries.getLast?.map LogEntry.sequence)
  s!"segment {id} envelope claims sequences {e.firstSequence}..={e.lastSequence} but its body holds {first}..={last}"

/-- Verify, then open the body, and hold the envelope's range against it. -/
def openBody (e : SegmentEnvelope K) : Except StoreError (List LogEntry) :=
  match e.verifySignature with
  | .error error => .error error
  | .ok () =>
    match K.openRandom e.owner e.segmentId e.sealedBody with
    | none => .error .crypto
    | some entries =>
      if entries.head?.map LogEntry.sequence ≠ some e.firstSequence ∨
          entries.getLast?.map LogEntry.sequence ≠ some e.lastSequence then
        .error (.corrupt (rangeText e entries))
      else .ok entries

/-- The entries this segment opens to, none if it does not open. -/
def body (e : SegmentEnvelope K) : List LogEntry :=
  match e.openBody with
  | .ok entries => entries
  | .error _ => []

theorem openBody_eq_body {e : SegmentEnvelope K} {entries : List LogEntry}
    (h : e.openBody = .ok entries) :
    e.body = entries := by
  rw [body, h]

end SegmentEnvelope

/-- What a segment that does not start where the one before it ended is refused
with. -/
def gapText (segment : SegmentEnvelope K) (next : ℕ) : String :=
  let id := String.ofList (short segment.segmentId)
  let missing := segment.firstSequence - next
  s!"segment {id} starts at sequence {segment.firstSequence} but {next} was expected; {missing} entries are missing"

/-- The break a chain has at `segment`, if any, when the segment before it had
the id `expectedPrevious` and ended just below `expectedSequence`. -/
def linkError (expectedPrevious : Option ObjectId) (expectedSequence : Option ℕ)
    (segment : SegmentEnvelope K) : Option StoreError :=
  match segment.verifySignature with
  | .error error => some error
  | .ok () =>
    match expectedPrevious, expectedSequence with
    | some expected, some next =>
      if segment.previous ≠ some expected then
        some (.segmentChainBroken (short segment.segmentId) (short expected)
          (segment.previous.elim "none".toList short))
      else if segment.firstSequence ≠ next then
        some (.corrupt (gapText segment next))
      else none
    | _, _ => none

/-- Walk the rest of a chain. -/
def validateFrom (expectedPrevious : Option ObjectId) (expectedSequence : Option ℕ) :
    List (SegmentEnvelope K) → Except StoreError Unit
  | [] => .ok ()
  | segment :: rest =>
    match linkError expectedPrevious expectedSequence segment with
    | some error => .error error
    | none => validateFrom (some segment.segmentId) (some (segment.lastSequence + 1)) rest

/-- Walk a device's segment chain and confirm it has no holes. -/
def validateChain (chain : List (SegmentEnvelope K)) : Except StoreError Unit :=
  validateFrom none none chain

/-! ### What creation and validation give -/

namespace SegmentEnvelope

/-- What `create` makes of a batch: an envelope with the batch's range that
verifies and opens to it. -/
theorem openBody_create {owner : UserId} {device : DeviceId} {previous : Option ObjectId}
    {id : ObjectId} {entries : List LogEntry} {e : SegmentEnvelope K}
    (h : create owner device previous id entries = .ok e) :
    e.openBody = .ok entries ∧ e.verifySignature = .ok () ∧ e.segmentId = id ∧ e.owner = owner ∧
      e.device = device ∧ e.previous = previous ∧
      entries.head?.map LogEntry.sequence = some e.firstSequence ∧
      entries.getLast?.map LogEntry.sequence = some e.lastSequence := by
  unfold create at h
  split at h
  · rename_i first last hf hl
    split at h
    · cases h
    · obtain rfl := Except.ok.inj h
      have hv : verifySignature (K := K) ⟨id, owner, device, first.sequence, last.sequence, previous,
          K.sealRandom owner id entries, K.sign device ⟨id, owner, device, first.sequence,
            last.sequence, previous, K.sealRandom owner id entries⟩⟩ = .ok () := by
        simp [verifySignature, signingPayload, K.verify_sign]
      refine ⟨?_, hv, rfl, rfl, rfl, rfl, by rw [hf]; rfl, by rw [hl]; rfl⟩
      unfold openBody
      rw [hv]
      simp [K.openRandom_sealRandom, hf, hl]
  · cases h

/-- A batch in ascending order is never refused. -/
theorem create_isOk (owner : UserId) (device : DeviceId) (previous : Option ObjectId)
    (id : ObjectId) (entries : List LogEntry) {first last : LogEntry}
    (hf : entries.head? = some first) (hl : entries.getLast? = some last)
    (h : first.sequence ≤ last.sequence) :
    ∃ e : SegmentEnvelope K, create owner device previous id entries = .ok e := by
  unfold create
  rw [hf, hl]
  simp only [not_lt.mpr h, ite_false]
  exact ⟨_, rfl⟩

end SegmentEnvelope

/-- Where a walk stands after a chain: the last segment's id and the sequence
number after it. -/
def chainEnd (expectedPrevious : Option ObjectId) (expectedSequence : Option ℕ) :
    List (SegmentEnvelope K) → Option ObjectId × Option ℕ
  | [] => (expectedPrevious, expectedSequence)
  | segment :: rest => chainEnd (some segment.segmentId) (some (segment.lastSequence + 1)) rest

theorem validateFrom_append (xs ys : List (SegmentEnvelope K)) :
    ∀ (p : Option ObjectId) (q : Option ℕ),
    validateFrom p q (xs ++ ys) = .ok () ↔
      validateFrom p q xs = .ok () ∧ validateFrom (chainEnd p q xs).1 (chainEnd p q xs).2 ys =
        .ok () := by
  induction xs with
  | nil => intro p q; simp [validateFrom, chainEnd]
  | cons x xs ih =>
    intro p q
    simp only [List.cons_append, validateFrom, chainEnd]
    cases linkError p q x with
    | some e => simp
    | none => exact ih _ _

/-- A chain validates with one more segment exactly when it validates and that
segment continues it. -/
theorem validateChain_append (xs ys : List (SegmentEnvelope K)) :
    validateChain (xs ++ ys) = .ok () ↔
      validateChain xs = .ok () ∧
        validateFrom (chainEnd none none xs).1 (chainEnd none none xs).2 ys = .ok () :=
  validateFrom_append xs ys none none

end Itsanas
