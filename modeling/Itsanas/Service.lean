/-
# Answering peers

`itsanas-net/src/service.rs`, and the requests of `protocol.rs`: a host answers other
devices from its own store, from its vault and by its book of claims. Who asks is the
device that the connection proved. A request is refused before anything is read if it is
malformed or reads an account its caller has presented no claim for; the others read, or
change one of three things: what the ledger says about the caller (`hosted`, `dropped`,
`leaving`, `draining`), the vault (`storeChunk`, `storeSegment`, `mayEvict`), or the book
(`claim`, and every store the book is asked to admit). `Handled` says this once, for all
requests.

A host has a book of claims always, as a node has. A request is answered at one moment:
the clocks are read once. What the placement of the round offers a caller is a field of
the host.
-/
import Itsanas.Owners
import Itsanas.Holders
import Itsanas.Rounds
import Itsanas.Vault

namespace Itsanas

/-! ### Messages -/

/-- What a peer may ask. -/
inductive Request (K : Crypto)
  | hello (protocol : ℕ) (device : DeviceId) (owner : UserId)
  | heads (owner : UserId)
  | segments (owner : UserId) (device : DeviceId) (after : Option ObjectId) (limit : ℕ)
  | chunk (owner : UserId) (address : ChunkId)
  | haveChunks (owner : UserId) (addresses : List ChunkId)
  | storeChunk (owner : UserId) (address : ChunkId) (sealed : Bytes)
  | storeSegment (envelope : SegmentEnvelope K)
  | challenge (owner : UserId) (address : ChunkId) (nonce : Id)
  | wantHosted (limit : ℕ)
  | hosted (chunks : List ChunkId)
  | dropped (owner : UserId) (chunks : List ChunkId)
  | chunkSummary (owner : UserId)
  | leaving
  | presences
  | claim (claim : Bytes)
  | draining (seconds : ℕ)
  | park
  | splice (parked : DeviceId)
  | mayEvict (owner : UserId) (chunks : List ChunkId)
  | claims (owner : UserId)

/-- What a host answers. -/
inductive Response (K : Crypto)
  | hello (protocol : ℕ) (device : DeviceId)
  | heads (heads : List (DeviceId × ObjectId × ℕ))
  | segments (segments : List (SegmentEnvelope K))
  | chunk (sealed : Option Bytes)
  | missing (addresses : List ChunkId)
  | stored (accepted : Bool)
  | challengeProof (proof : Id)
  | chunkSummary (digests : List Id)
  | wantHosted (owner : UserId) (chunks : List ChunkId)
  | refused (why : String)
  /-- Refused, with the text of the error. -/
  | refusedSegment (error : StoreError)
  | presences (rows : List Bytes)
  | claim (claim : Bytes)
  | exposed (chunks : ℕ)
  | mayEvict (marked : ℕ)
  | claims (claims : List Bytes)

namespace Request

variable {K : Crypto}

def minProtocolVersion : ℕ := 4

def maxHaveBatch : ℕ := 1024

def maxClaimBytes : ℕ := 512

/-- A batch that is neither empty nor too long. -/
def batch (length : ℕ) : Bool := 0 < length ∧ length ≤ maxHaveBatch

/-- Whether the request is within its bounds. -/
def isAcceptable : Request K → Bool
  | segments _ _ _ limit => 0 < limit ∧ limit ≤ maxSegmentsPerRequest
  | hello protocol _ _ => minProtocolVersion ≤ protocol
  | dropped _ chunks | hosted chunks | mayEvict _ chunks => batch chunks.length
  | claim bytes => 0 < bytes.length ∧ bytes.length ≤ maxClaimBytes
  | haveChunks _ addresses => batch addresses.length
  | _ => true

/-- The account a request reads, if it reads one. -/
def readOwner : Request K → Option UserId
  | heads owner | segments owner _ _ _ | chunk owner _ | haveChunks owner _ | chunkSummary owner
  | challenge owner _ _ | claims owner => some owner
  | _ => none

/-- The account whose hosted data a request touches, if any. -/
def hostedOwner : Request K → Option UserId
  | storeChunk owner _ _ | mayEvict owner _ => some owner
  | storeSegment envelope => some envelope.owner
  | request => request.readOwner

end Request

/-! ### Refusals -/

def pledgeExhausted : String := "pledged capacity exhausted"

def hostingAway : String := "this machine's hosting disk is away; ask again later"

def notYourAccount : String :=
  "present this account's claim first: only its own devices read what is held for it " ++
    "(update ITSaNAS on this machine if it already is one)"

def notYoursToEvict : String :=
  "this host lets only a confirmed device of that account mark its chunks evictable"

def noBook : String := "this node relays no presences"

def notYours : String := "not a machine of this account, as far as this node knows"

def notRelayed : String := "relays are not chained"

namespace NotAdmitted

/-- Whether the refusal says that the account has stored what its pledge earns. -/
def accountFull : NotAdmitted → Bool
  | full contradicted _ _ _ _ => !contradicted
  | _ => false

/-- How many bytes must go before `incoming` fits, by the figures of the refusal. -/
def overage (incoming : ℕ) : NotAdmitted → ℕ
  | full _ mine allowance _ _ =>
    if 0 < saturatingAdd mine incoming - allowance then saturatingAdd mine incoming -
      allowance else incoming
  | _ => incoming

end NotAdmitted

/-! ### Summaries -/

/-- The hashes of the peer protocol. -/
structure PeerHashes where
  /-- The digest of one bucket, from its chunks in ascending order. -/
  bucket : Fin 256 → List ChunkId → Id
  /-- The proof of holding the bytes. -/
  challengeProof : Id → Bytes → Id

/-- The first byte of a chunk's address. -/
def firstByte (chunk : ChunkId) : ℕ := chunk.val / 2 ^ 248

/-- The digests of a set of chunks, given in ascending order: one for each first byte. -/
def PeerHashes.buckets (H : PeerHashes) (chunks : List ChunkId) : List Id :=
  (List.finRange 256).map fun b => H.bucket b (chunks.filter fun c => firstByte c = b)

/-! ### Hosts -/

/-- How many bytes a host has pledged. -/
structure Pledge where
  bytes : ℕ
  fits : bytes ≤ u64Max

/-- The claims a vault keeps, by device, and when each was presented last. -/
structure KeptClaims where
  claims : Table DeviceId (UserId × Bytes)
  seen : Table DeviceId ℕ
  presentations : ℕ

namespace KeptClaims

def maxKeptClaims : ℕ := 4096

def maxClaimsPerAnswer : ℕ := 16

def new : KeptClaims := ⟨∅, ∅, 0⟩

/-- Keep a claim, unless it is one of a new device and there is no place for it. -/
def keep (kept : KeptClaims) (device : DeviceId) (owner : UserId) (claim : Bytes) : KeptClaims :=
  if (kept.claims[device]?).isNone ∧ maxKeptClaims ≤ kept.claims.size then kept
  else
    { claims := kept.claims.insert device (owner, claim)
      seen := kept.seen.insert device (saturatingAdd kept.presentations 1)
      presentations := saturatingAdd kept.presentations 1 }

/-- The claims kept for an account, the last presented first. -/
def claimsFor (kept : KeptClaims) (owner : UserId) : List Bytes :=
  let found := (kept.claims.toList.filter fun r => r.2.1 = owner ∧ r.2.2 ≠ []).map fun r =>
    ((kept.seen[r.1]?).getD 0, r.2.2)
  ((found.insertionSort fun a b => b.1 ≤ a.1).take maxClaimsPerAnswer).map Prod.snd

end KeptClaims

/-- The moment a request is answered: the wall clock in seconds, the host's own clock in
nanoseconds, and what the coordinator says if it is asked. -/
structure Moment where
  unix : ℕ
  now : ℕ
  inFlight : ℕ
  verdict : Verdict

/-- A node that answers peers. -/
structure Host (K : Crypto) where
  store : Store K
  vault : Depot K
  book : ClaimBook
  kept : KeptClaims
  pledge : Pledge
  /-- Whether the disk of the vault is away. -/
  away : Bool
  /-- The newest protocol this host admits to. -/
  protocol : ℕ
  ownClaim : Option Bytes
  /-- The rows for a caller that the book of presences counts as a machine of the account. -/
  relay : Option (DeviceId → Option (List Bytes))
  /-- What the placement of the round offers a caller, if there is one and the caller is no
  device of the own account. -/
  placed : DeviceId → Option (List ChunkId)

variable {K : Crypto}

namespace Index

/-- How many live chunks `device` holds that no other live device does that is not
draining. -/
def exposedBy (ix : Index K) (device : DeviceId) (now : ℕ) : ℕ :=
  (ix.ledger.holdingsOf device).countP fun chunk =>
    (ix.tree.chunkRefs[chunk]?).any (0 < ·) ∧ ¬(ix.ledger.copies chunk now).any (· ≠ device)

/-- Admit a device to the roster, unless it was revoked. -/
def admitMember (ix : Index K) (device : DeviceId) (revoked : Bool) : Index K :=
  if ix.roster[device]? = some false ∨ ix.roster[device]? = some !revoked then ix
  else { ix with roster := ix.roster.insert device !revoked }

end Index

namespace Store

def withIndex (st : Store K) (ix : Index K) : Store K := { st with index := ix }

/-- The chunks a summary of the own account is made of: those with a row, but for those
known to be lost. -/
def summarised (st : Store K) : List ChunkId :=
  (st.tree.chunkRefs.toList.map Prod.fst).filter fun chunk => (st.index.losses[chunk]?).isNone

end Store

def replicationTarget : ℕ := 3

namespace Host

def wantHostedCeiling : ℕ := 64

def keepClaimStep : ℕ := 15 * 60

def maxRelayedRows : ℕ := 256

def maxRelayedRowBytes : ℕ := 1024

/-! ### Reading -/

/-- The refusal of a malformed request, or of a read by a device of another account. -/
def refusedBeforeReading (h : Host K) (request : Request K) (caller : DeviceId) : Option String :=
  if !request.isAcceptable then some "malformed request"
  else if h.away ∧ request.hostedOwner.any (· ≠ h.store.owner) then some hostingAway
  else
    match request.readOwner with
    | none => none
    | some owner => if h.book.presentedFor caller = some owner then none else some notYourAccount

/-- A sealed chunk: from the own store if it is there and the account is the own one, else
from the vault. -/
def chunk (h : Host K) (owner : UserId) (address : ChunkId) : Option Bytes :=
  match if owner = h.store.owner then h.store.blobs[address]? else none with
  | some sealed => some sealed
  | none => h.vault.getChunk owner address

/-- Those of `addresses` that are answered missing. A marked chunk is, so that its owner
does not count it again. -/
def missing (h : Host K) (owner : UserId) (addresses : List ChunkId) (unix : ℕ) : List ChunkId :=
  let marked := if owner = h.store.owner then [] else h.vault.markedAmong owner addresses unix
  addresses.filter fun address => address ∈ marked ∨ (h.chunk owner address).isNone

/-- The chunks a summary is made of. -/
def summarised (h : Host K) (owner : UserId) (unix : ℕ) : List ChunkId :=
  if owner = h.store.owner then h.store.summarised else h.vault.summarised owner unix

def chunkSummary (H : PeerHashes) (h : Host K) (owner : UserId) (unix : ℕ) : List Id :=
  H.buckets (h.summarised owner unix)

/-- The last segment of every chain, from the vault and the own log, by device. -/
def heads (h : Host K) (owner : UserId) : List (DeviceId × ObjectId × ℕ) :=
  let own :=
    if owner = h.store.owner then
      (h.store.index.log.headSegment.map fun head =>
        (h.store.device, head, h.store.index.log.chainLength)).toList
    else []
  (h.vault.headsFor owner ++ own).insertionSort fun a b => a.1 ≤ b.1

/-- A page of a chain. -/
def segments (h : Host K) (owner : UserId) (device : DeviceId) (after : Option ObjectId) (limit : ℕ) :
    List (SegmentEnvelope K) :=
  if owner = h.store.owner ∧ device = h.store.device then
    match after with
    | none => h.store.segments.take limit
    | some id =>
      match h.store.segments.findIdx? fun e => e.segmentId = id with
      | some index => (h.store.segments.drop (index + 1)).take limit
      | none => []
  else h.vault.segmentsFor owner device after limit

/-- Chunks this node would like the caller to hold. -/
def wantHosted (h : Host K) (limit : ℕ) (caller : DeviceId) (unix : ℕ) : List ChunkId :=
  match h.placed caller with
  | some share => share.take (min limit wantHostedCeiling)
  | none =>
    ((h.store.index.underReplicated replicationTarget unix).take (min limit wantHostedCeiling)).map
      AtRisk.chunk

/-- The machines of the account. -/
def presences (h : Host K) (caller : DeviceId) : Response K :=
  match h.relay with
  | none => .refused noBook
  | some presencesFor =>
    match presencesFor caller with
    | none => .refused notYours
    | some rows =>
      .presences ((rows.filter fun row => row.length ≤ maxRelayedRowBytes).take maxRelayedRows)

/-! ### Storing -/

/-- Whether `incoming` more bytes would take the vault past the pledge. -/
def wouldExceedPledge (h : Host K) (incoming : ℕ) :
    Bool := h.pledge.bytes < h.vault.heldBytes + incoming

/-- Ask the book whether `caller` may store `incoming` more bytes for `owner`. -/
def admits (h : Host K) (caller : DeviceId) (owner : UserId) (incoming : ℕ) (m : Moment) :
    Host K × Except NotAdmitted Unit :=
  let (book, answer) := h.book.admits caller owner incoming h.store h.vault h.pledge.bytes m.now m.unix
  ({ h with book := book }, answer)

/-- Store one chunk, within the pledge and the bound of the account. If it is the bound
that refuses it, chunks the account has marked make room, and the bound is asked again. -/
def storeChunk (h : Host K) (caller : DeviceId) (owner : UserId) (address : ChunkId)
    (sealed : Bytes) (m : Moment) : Host K × Response K :=
  let put (h : Host K) : Host K × Response K :=
    ({ h with vault := (h.vault.putChunk owner address sealed).1 }, .stored true)
  if h.wouldExceedPledge sealed.length then (h, .refused pledgeExhausted)
  else
    match h.admits caller owner sealed.length m with
    | (h, .ok ()) => put h
    | (h, .error why) =>
      if !why.accountFull then (h, .refused why.text)
      else
        let (vault, freed) := h.vault.evictMarked owner (why.overage sealed.length) m.unix
        let h := { h with vault := vault }
        if freed = 0 then (h, .refused why.text)
        else
          match h.admits caller owner sealed.length m with
          | (h, .ok ()) => put h
          | (h, .error why) => (h, .refused why.text)

section
variable [SealedLength K]

/-- Store one segment. Its body is held against the pledge and the bound. -/
def storeSegment (h : Host K) (caller : DeviceId) (envelope : SegmentEnvelope K) (m : Moment) :
    Host K × Response K :=
  if h.wouldExceedPledge envelope.bodyLength then (h, .refused pledgeExhausted)
  else
    match h.admits caller envelope.owner envelope.bodyLength m with
    | (h, .error why) => (h, .refused why.text)
    | (h, .ok ()) =>
      match h.vault.putSegment envelope with
      | (vault, .ok accepted) => ({ h with vault := vault }, .stored accepted)
      | (vault, .error error) => ({ h with vault := vault }, .refusedSegment error)

end

/-- Mark chunks of an account, on the word of a confirmed device of it. -/
def mayEvict (h : Host K) (caller : DeviceId) (owner : UserId) (chunks : List ChunkId) (m : Moment) :
    Host K × Response K :=
  if owner ≠ h.store.owner ∧ h.book.speaksFor caller owner m.now then
    let (vault, marked) := h.vault.markEvictable owner chunks m.unix
    ({ h with vault := vault }, .mayEvict marked)
  else (h, .refused notYoursToEvict)

/-! ### Claims -/

section
variable (C : ClaimCodec)

/-- Whether `presented` tells nothing that `kept` does not. -/
def addsNothing (kept presented : Bytes) : Bool :=
  match C.decode kept, C.decode presented with
  | some (kept, _), some (presented, _) =>
    let older : Bool := presented.issuedUnix ≤ kept.issuedUnix
    let redated : Bool := kept.pledgedBytes = presented.pledgedBytes ∧
      kept.revoked = presented.revoked ∧
      presented.issuedUnix < saturatingAdd kept.issuedUnix keepClaimStep
    kept.owner = presented.owner ∧ kept.device = presented.device ∧ (older ∨ redated)
  | _, _ => false

/-- Keep the claim of a device, and admit it to the roster if it is one of the own
account. -/
def keepClaim (h : Host K) (caller : DeviceId) (owner : UserId) (bytes : Bytes) : Host K :=
  let unchanged := (h.kept.claims[caller]?).any fun r => r.1 = owner ∧ addsNothing C r.2 bytes
  { h with
    kept := if unchanged then h.kept else h.kept.keep caller owner bytes
    store :=
      if owner = h.store.owner then h.store.withIndex (h.store.index.admitMember caller false)
      else h.store }

/-- Take the claim `caller` presented. -/
def claim (h : Host K) (caller : DeviceId) (bytes : Bytes) (m : Moment) : Host K × Response K :=
  match h.book.take C caller bytes h.vault m.now m.inFlight m.verdict with
  | (book, .error why) => ({ h with book := book }, .refused why)
  | (book, .ok ()) =>
    let h := { h with book := book }
    ((book.presentedFor caller).elim h fun owner => h.keepClaim C caller owner bytes,
      h.ownClaim.elim (.stored true) .claim)

end

/-- The claims kept for an account, for a device that presented one of it. -/
def claims (h : Host K) (caller : DeviceId) (owner : UserId) : List Bytes :=
  if h.book.presentedFor caller = some owner then
    (h.kept.claimsFor owner).filter fun claim => claim.length ≤ Request.maxClaimBytes
  else []

/-! ### Requests -/

/-- Stop counting `caller` for a while, and say how much rests on it alone. -/
def draining (h : Host K) (caller : DeviceId) (seconds : ℕ) (m : Moment) : Host K × Response K :=
  let ix := (h.store.index.noteDraining caller (saturatingAdd m.unix seconds) m.unix).1
  ({ h with store := h.store.withIndex ix }, .exposed (ix.exposedBy caller m.unix))

variable [SealedLength K] (C : ClaimCodec) (H : PeerHashes)

/-- Answer a request that is not refused before anything is read. -/
def answer (h : Host K) (request : Request K) (caller : DeviceId) (m : Moment) : Host K × Response K :=
  match request with
  | .hello protocol _ _ => (h, .hello (min protocol h.protocol) h.store.device)
  | .heads owner => (h, .heads (h.heads owner))
  | .segments owner device after limit =>
    (h, .segments (h.segments owner device after (min limit maxSegmentsPerRequest)))
  | .chunk owner address => (h, .chunk (h.chunk owner address))
  | .haveChunks owner addresses => (h, .missing (h.missing owner addresses m.unix))
  | .storeChunk owner address sealed => h.storeChunk caller owner address sealed m
  | .storeSegment envelope => h.storeSegment caller envelope m
  | .challenge owner address nonce =>
    match h.chunk owner address with
    | some sealed => (h, .challengeProof (H.challengeProof nonce sealed))
    | none => (h, .refused "chunk not held")
  | .wantHosted limit => (h, .wantHosted h.store.owner (h.wantHosted limit caller m.unix))
  | .chunkSummary owner => (h, .chunkSummary (h.chunkSummary H owner m.unix))
  | .dropped owner chunks =>
    if owner ≠ h.store.owner then (h, .refused "this node keeps no ledger for that account")
    else
      ({ h with store := h.store.withIndex (h.store.index.forgetHolders chunks caller m.unix) },
        .stored true)
  | .leaving =>
    ({ h with store := h.store.withIndex (h.store.index.forgetDevice caller m.unix).1 }, .stored true)
  | .presences => (h, h.presences caller)
  | .claim bytes => h.claim C caller bytes m
  | .draining seconds => h.draining caller seconds m
  | .park | .splice _ => (h, .refused notRelayed)
  | .mayEvict owner chunks => h.mayEvict caller owner chunks m
  | .claims owner => (h, .claims (h.claims caller owner))
  | .hosted chunks =>
    ({ h with store := h.store.withIndex (h.store.index.recordHolders chunks caller m.unix) },
      .stored true)

/-- Answer a request. -/
def handle (h : Host K) (request : Request K) (caller : DeviceId) (m : Moment) : Host K × Response K :=
  match h.refusedBeforeReading request caller with
  | some why => (h, .refused why)
  | none => h.answer C H request caller m

/-! ### What a request can do -/

/-- Everything a request can do to a host. -/
inductive Handled (h : Host K) : Request K → DeviceId → Moment → Host K → Prop
  | same (request : Request K) (caller : DeviceId) (m : Moment) : Handled h request caller m h
  | storeChunk (owner : UserId) (address : ChunkId) (sealed : Bytes) (caller : DeviceId) (m : Moment) :
      Handled h (.storeChunk owner address sealed) caller m
        (h.storeChunk caller owner address sealed m).1
  | storeSegment (envelope : SegmentEnvelope K) (caller : DeviceId) (m : Moment) :
      Handled h (.storeSegment envelope) caller m (h.storeSegment caller envelope m).1
  | mayEvict (owner : UserId) (chunks : List ChunkId) (caller : DeviceId) (m : Moment) :
      Handled h (.mayEvict owner chunks) caller m
        { h with vault := (h.vault.markEvictable owner chunks m.unix).1 }
  | hosted (chunks : List ChunkId) (caller : DeviceId) (m : Moment) :
      Handled h (.hosted chunks) caller m
        { h with store := h.store.withIndex (h.store.index.recordHolders chunks caller m.unix) }
  | dropped (chunks : List ChunkId) (caller : DeviceId) (m : Moment) :
      Handled h (.dropped h.store.owner chunks) caller m
        { h with store := h.store.withIndex (h.store.index.forgetHolders chunks caller m.unix) }
  | leaving (caller : DeviceId) (m : Moment) :
      Handled h .leaving caller m
        { h with store := h.store.withIndex (h.store.index.forgetDevice caller m.unix).1 }
  | draining (seconds : ℕ) (caller : DeviceId) (m : Moment) :
      Handled h (.draining seconds) caller m (h.draining caller seconds m).1
  | claim (bytes : Bytes) (caller : DeviceId) (m : Moment) :
      Handled h (.claim bytes) caller m (h.claim C caller bytes m).1

/-- **What a request can do.** -/
theorem handled (h : Host K) (request : Request K) (caller : DeviceId) (m : Moment) :
    Handled C h request caller m (h.handle C H request caller m).1 := by
  unfold handle
  cases h.refusedBeforeReading request caller with
  | some why => exact .same request caller m
  | none =>
    dsimp only
    cases request with
    | storeChunk owner address sealed => exact .storeChunk owner address sealed caller m
    | storeSegment envelope => exact .storeSegment envelope caller m
    | hosted chunks => exact .hosted chunks caller m
    | leaving => exact .leaving caller m
    | draining seconds => exact .draining seconds caller m
    | claim bytes => exact .claim bytes caller m
    | dropped owner chunks =>
      simp only [answer]
      by_cases howner : owner = h.store.owner
      · subst howner
        rw [if_neg (not_not.mpr rfl)]
        exact .dropped chunks caller m
      · rw [if_pos howner]
        exact .same _ caller m
    | mayEvict owner chunks =>
      simp only [answer, mayEvict]
      split_ifs
      · exact .mayEvict owner chunks caller m
      · exact .same _ caller m
    | challenge owner address nonce =>
      simp only [answer]
      cases h.chunk owner address <;> exact .same _ caller m
    | hello protocol device owner => exact .same _ caller m
    | heads owner => exact .same _ caller m
    | segments owner device after limit => exact .same _ caller m
    | chunk owner address => exact .same _ caller m
    | haveChunks owner addresses => exact .same _ caller m
    | wantHosted limit => exact .same _ caller m
    | chunkSummary owner => exact .same _ caller m
    | presences => exact .same _ caller m
    | park => exact .same _ caller m
    | splice parked => exact .same _ caller m
    | claims owner => exact .same _ caller m

/-! ### How a store goes -/

section
variable {P R : Host K → Prop} {caller : DeviceId} {owner : UserId} {m : Moment} {h : Host K}

omit [SealedLength K] in
/-- A chunk is stored by asking the bound, at most twice and with an eviction in between, and
put if it was admitted. `P` is to hold while the bound is asked, `R` in the end. -/
theorem storeChunk_rule {address : ChunkId} {sealed : Bytes} (hend : ∀ h : Host K, P h → R h)
    (hask : ∀ h : Host K, P h → P (h.admits caller owner sealed.length m).1)
    (hevict : ∀ (h : Host K) needed, P h →
      P { h with vault := (h.vault.evictMarked owner needed m.unix).1 })
    (hput : ∀ h : Host K, P h → (h.admits caller owner sealed.length m).2 = .ok () →
      R { (h.admits caller owner sealed.length m).1 with
        vault := (h.vault.putChunk owner address sealed).1 })
    (hrefused : R h) (hstart : h.vault.heldBytes + sealed.length ≤ h.pledge.bytes → P h) :
    R (h.storeChunk caller owner address sealed m).1 := by
  unfold storeChunk
  dsimp only
  by_cases hexceeds : h.wouldExceedPledge sealed.length
  · rw [if_pos hexceeds]
    exact hrefused
  rw [if_neg hexceeds]
  have hfits : P h := by
    rw [wouldExceedPledge, decide_eq_true_eq, not_lt] at hexceeds
    exact hstart hexceeds
  have hasked := hask h hfits
  rcases hadmits : h.admits caller owner sealed.length m with ⟨h₁, why | _⟩
  · rw [hadmits] at hasked
    dsimp only
    split_ifs
    · exact hend h₁ hasked
    · exact hend _ (hevict h₁ _ hasked)
    · have hevicted := hevict h₁ (why.overage sealed.length) hasked
      have hagain := hask _ hevicted
      have hputAgain := hput _ hevicted
      rcases hadmits' :
        ({ h₁ with vault := (h₁.vault.evictMarked owner (why.overage sealed.length) m.unix).1 } :
        Host K).admits caller owner sealed.length m with ⟨h₂, why' | _⟩
      · rw [hadmits'] at hagain
        exact hend h₂ hagain
      · rw [hadmits'] at hputAgain
        have hvault : h₂.vault = (h₁.vault.evictMarked owner (why.overage sealed.length) m.unix).1 :=
          congrArg (fun r => (Prod.fst r).vault) hadmits'.symm
        show R { h₂ with vault := (h₂.vault.putChunk owner address sealed).1 }
        rw [hvault]
        exact hputAgain rfl
  · have hput₁ := hput h hfits
    rw [hadmits] at hput₁
    have hvault : h₁.vault = h.vault := congrArg (fun r => (Prod.fst r).vault) hadmits.symm
    show R { h₁ with vault := (h₁.vault.putChunk owner address sealed).1 }
    rw [hvault]
    exact hput₁ rfl

/-- A segment is stored by asking the bound for its body, and put if it was admitted. -/
theorem storeSegment_rule {envelope : SegmentEnvelope K} (hend : ∀ h : Host K, P h → R h)
    (hask : ∀ h : Host K, P h → P (h.admits caller envelope.owner envelope.bodyLength m).1)
    (hput : ∀ h : Host K, P h → (h.admits caller envelope.owner envelope.bodyLength m).2 = .ok () →
      R { (h.admits caller envelope.owner envelope.bodyLength m).1 with
        vault := (h.vault.putSegment envelope).1 })
    (hrefused : R h) (hstart : h.vault.heldBytes + envelope.bodyLength ≤ h.pledge.bytes → P h) :
    R (h.storeSegment caller envelope m).1 := by
  unfold storeSegment
  by_cases hexceeds : h.wouldExceedPledge envelope.bodyLength
  · rw [if_pos hexceeds]
    exact hrefused
  rw [if_neg hexceeds]
  have hfits : P h := by
    rw [wouldExceedPledge, decide_eq_true_eq, not_lt] at hexceeds
    exact hstart hexceeds
  rcases hadmits : h.admits caller envelope.owner envelope.bodyLength m with ⟨h₁, why | _⟩
  · have hasked := hask h hfits
    rw [hadmits] at hasked
    exact hend h₁ hasked
  · have hput₁ := hput h hfits
    rw [hadmits] at hput₁
    have hvault : h₁.vault = h.vault := congrArg (fun r => (Prod.fst r).vault) hadmits.symm
    rw [← hvault] at hput₁
    dsimp only
    rcases hseg : h₁.vault.putSegment envelope with ⟨vault, error | accepted⟩
    · rw [hseg] at hput₁
      exact hput₁ rfl
    · rw [hseg] at hput₁
      exact hput₁ rfl

end

omit [SealedLength K] in
/-- A claim goes to the book; one that is taken may be kept, and add the caller to the
roster. -/
theorem claim_cases (h : Host K) (caller : DeviceId) (bytes : Bytes) (m : Moment) :
    ∃ kept store,
      (store = h.store ∨ store = h.store.withIndex (h.store.index.admitMember caller false)) ∧
      (h.claim C caller bytes m).1 =
        { h with
          book := (h.book.take C caller bytes h.vault m.now m.inFlight m.verdict).1
          kept := kept
          store := store } := by
  unfold claim
  split
  · rename_i book why heq
    rw [heq]
    exact ⟨h.kept, h.store, .inl rfl, rfl⟩
  · rename_i book heq
    rw [heq]
    cases book.presentedFor caller with
    | none => exact ⟨h.kept, h.store, .inl rfl, rfl⟩
    | some owner =>
      refine ⟨_, _, ?_, rfl⟩
      by_cases howner : owner = h.store.owner
      · exact .inr (if_pos howner)
      · exact .inl (if_neg howner)

/-- Sealed bodies of as many bytes as they have entries. -/
instance symbolicLength : SealedLength symbolic := ⟨fun sealed => sealed.2.2.length⟩

def noHashes : PeerHashes := ⟨fun _ _ => 0, fun _ _ => 0⟩

def moment : Moment := ⟨0, 0, 0, .noAnswer⟩

theorem thousand_fits : 1000 ≤ u64Max := by decide

/-- A new host with a pledge of 1000. -/
def fresh (store : Store symbolic) : Host symbolic where
  store := store
  vault := .new
  book := .withCapacity ClaimBook.maxClaims none
  kept := .new
  pledge := ⟨1000, thousand_fits⟩
  away := false
  protocol := 11
  ownClaim := none
  relay := none
  placed _ := none

end Host

end Itsanas
