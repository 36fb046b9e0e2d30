/-
# A node and its coordinator

`contact.rs` of `itsanas-node`: when a node asks the coordinator where the account's other devices
are, and the book of their addresses. The addresses come from four places (a list of the
coordinator, rows a peer relays, the file, and what worked), all through one door, `insert`, which
keeps at most so many addresses of a device, best first.

This module has the model, and the schedule: after the first read that was answered, the node asks
again only when a device was missed, and then with the waits of `Lib/Backoff.lean`; everything
else it does can only put the next time off, or let the wait fall back, which is floored
(`step_paced`). What holds of the book is in `AddressBook.lean`.

The lock, hosts that relay, what is dialled (`dialable`) and what is handed to peers are left out,
and the file is as `save` wrote it: its first version, damage and the texts of the warnings are
left out.
-/
import Itsanas.Lib.Backoff
import Itsanas.Owners

namespace Itsanas

namespace Contact

/-! ### Times -/

/-- A duration, in the unit of instants. -/
def secs (n : ℕ) : ℕ := 1000000000 * n

def publishEvery : ℕ := secs 3600

def rereadAfterMiss : ℕ := secs 120

def resetFloor : ℕ := secs 600

def quietAfterMiss : ℕ := secs 60

def quietAtMost : ℕ := secs (30 * 60)

/-- How long a device is left out after so many rounds in a row answering nowhere. -/
def quietFor (misses : ℕ) : ℕ := min (quietAfterMiss * 2 ^ min (misses - 1) 16) quietAtMost

def maxDevices : ℕ := 256

def maxAddresses : ℕ := 4

def bookVersion : ℕ := 2

/-! ### What is signed -/

/-- A device saying where it can be reached. -/
structure Presence where
  device : DeviceId
  address : Str
  atUnix : ℕ
  deriving DecidableEq

/-- Whether a signature is that of the account a claim names, or of the device a presence names. -/
structure Seals where
  Signature : Type
  claim : NodeClaim → Signature → Bool
  presence : Presence → Signature → Bool
  decEq : DecidableEq Signature

instance decEqSignature (S : Seals) : DecidableEq S.Signature := S.decEq

structure SignedPresence (S : Seals) where
  presence : Presence
  signature : S.Signature
  deriving DecidableEq

structure SignedClaim (S : Seals) where
  claim : NodeClaim
  signature : S.Signature

structure ClaimedPresence (S : Seals) where
  presence : SignedPresence S
  claim : SignedClaim S

variable {S : Seals}

/-- Why a row is refused. -/
inductive CoordError
  | badSignature (what : String)
  | rejected (why : String)
  deriving DecidableEq

/-- Go on if `c`. -/
def require (c : Bool) (error : CoordError) :
    Except CoordError Unit := if c then .ok () else .error error

def maxClockSkew : ℕ := 3600

def maxAddressLen : ℕ := 255

/-- Whether the device named in the presence signed it, and nothing about when. -/
def SignedPresence.verifyOrigin (signed : SignedPresence S) : Except CoordError Unit := do
  require ((signed.presence.address.map Char.utf8Size).sum ≤ maxAddressLen)
    (.rejected "address is too long")
  require (signed.presence.address ≠ []) (.rejected "address is empty")
  require (S.presence signed.presence signed.signature) (.badSignature "presence")

/-- Whether this is a machine of `owner`, at an address it published. -/
def ClaimedPresence.verifyFor (row : ClaimedPresence S) (owner : UserId) : Except CoordError Unit := do
  row.presence.verifyOrigin
  require (S.claim row.claim.claim row.claim.signature) (.badSignature "node claim")
  require (row.claim.claim.owner = owner) (.rejected "the claim names another account")
  require (row.claim.claim.device = row.presence.presence.device)
    (.rejected "the claim is for another device")
  require (!row.claim.claim.revoked) (.rejected "the device was withdrawn")

/-! ### The state -/

/-- What to ask the coordinator this round. -/
structure Due where
  publish : Bool
  read : Bool
  acceptUnsigned : Bool
  deriving DecidableEq

def Due.any (due : Due) : Bool := due.publish || due.read

/-- A device that answered nowhere at the rounds that dialled it. -/
structure Quiet where
  misses : ℕ
  round : ℕ
  until' : ℕ
  news : Bool
  deriving DecidableEq

structure Candidate (S : Seals) where
  address : Str
  worked : Option ℕ
  presence : Option (SignedPresence S)
  claim : Option (SignedClaim S)
  proven : Bool

structure BookEntry (S : Seals) where
  presence : SignedPresence S
  worked : Option ℕ
  claim : Option (SignedClaim S)

/-- The address book as written. -/
structure BookFile (S : Seals) where
  version : ℕ
  signs : Bool
  entries : List (BookEntry S)

/-- What became of the rows a peer relayed. -/
structure Relayed where
  kept : ℕ
  forged : ℕ
  unknown : ℕ
  stale : ℕ
  deriving DecidableEq

end Contact

open Contact

/-- What a node last published and read, and where the other devices were last known to be. -/
structure Contact (S : Seals) where
  published : Option (Option Str × ℕ)
  readAt : Option ℕ
  askedAt : Option ℕ
  missed : Bool
  missing : List DeviceId
  missWait : Option ℕ
  signs : Bool
  book : Table DeviceId (List (Candidate S))
  changed : Bool
  rounds : ℕ
  resetAt : Option ℕ
  quiet : Table DeviceId Quiet

namespace Contact
variable {S : Seals}

def new : Contact S := ⟨none, none, none, false, [], none, false, ∅, false, 0, none, ∅⟩

/-! ### The schedule -/

/-- What this round should ask of the coordinator. -/
def due (c : Contact S) (address : Option Str) (now : ℕ) : Due :=
  let publish := match c.published with
    | none => true
    | some (forAddress, at') =>
      let moved := match address, forAddress with
        | some nowAt, some thenAt => decide (nowAt ≠ thenAt)
        | some _, none => true
        | none, some _ => true
        | none, none => false
      moved || decide (publishEvery ≤ now - at')
  let lastAsked := max c.readAt c.askedAt
  let wait := c.missWait.getD rereadAfterMiss
  let reread := c.missed && lastAsked.all fun at' => wait ≤ now - at'
  { publish := publish
    read := publish || c.readAt.isNone || reread
    acceptUnsigned := !c.signs }

/-- The coordinator is about to be asked what `due` says. -/
def asked (c : Contact S) (due : Due) (now : ℕ) : Contact S :=
  if due.read then
    { c with
      askedAt := some now
      missWait :=
        if c.missed then some
          (min (2 * c.missWait.getD rereadAfterMiss) publishEvery) else c.missWait }
  else c

/-- Put the wait after a miss back, unless it fell back lately. -/
def fallBack (c : Contact S) (now : ℕ) : Contact S :=
  if c.missWait.isNone then c
  else if c.resetAt.all fun at' => resetFloor ≤ now - at' then { c with missWait := none, resetAt := some now }
  else c

/-- Record who the round reached, once it has dialled everybody it was going to. -/
def roundReached (c : Contact S) (reached : List DeviceId) (now : ℕ) : Contact S :=
  let missing := (c.book.toList.map Prod.fst).filter fun device => device ∉ reached
  let fellBack :=
    if missing.isEmpty || c.missing.any fun device => device ∈ reached then c.fallBack now else c
  { fellBack with
    rounds := saturatingAdd c.rounds 1
    quiet := c.quiet.filter fun device _ => device ∉ reached
    missed := !missing.isEmpty
    missing := missing }

def publishedFor (c : Contact S) (address : Option Str) (now : ℕ) : Contact S :=
  { c with published := some (address, now) }

def signed (c : Contact S) : Contact S := { c with changed := c.changed || !c.signs, signs := true }

/-! ### The book -/

section
variable (isPrivateAddress : Str → Bool)

/-- Worked most recently first, then never-worked public before never-worked private. -/
def bestFirst (a b : Candidate S) : Prop :=
  b.worked.elim 0 (· + 1) < a.worked.elim 0 (· + 1) ∨
    b.worked.elim 0 (· + 1) = a.worked.elim 0 (· + 1) ∧
      (isPrivateAddress a.address = true → isPrivateAddress b.address = true)

instance decidableBestFirst : DecidableRel (bestFirst isPrivateAddress (S := S)) :=
  fun _ _ => inferInstanceAs (Decidable (_ ∨ _ ∧ _))

def sortBestFirst (candidates : List (Candidate S)) : List (Candidate S) :=
  candidates.insertionSort (bestFirst isPrivateAddress)

/-- The first candidate at `address`, changed. -/
def amend (address : Str) (f : Candidate S → Candidate S) : List (Candidate S) → List (Candidate S)
  | [] => []
  | candidate :: rest =>
    if candidate.address = address then f candidate :: rest else candidate :: amend address f rest

/-- Whether the presence is signed at last, or signed again later. -/
def Candidate.later (known : Candidate S) (presence : SignedPresence S) : Bool :=
  known.presence.all fun held => held.presence.atUnix < presence.presence.atUnix

def Candidate.renewPresence (known : Candidate S)
    (presence : Option (SignedPresence S)) : Candidate S × Bool :=
  match presence with
  | some presence =>
      if known.later presence then ({ known with presence := some presence }, true)
      else (known, false)
  | none => (known, false)

/-- Whether there is a claim at last, or a later one. -/
def Candidate.laterClaim (known : Candidate S) (claim : SignedClaim S) : Bool :=
  known.presence.isSome && known.claim.all fun held => held.claim.issuedUnix < claim.claim.issuedUnix

def Candidate.renewClaim (known : Candidate S) (claim : Option (SignedClaim S)) : Candidate S × Bool :=
  match claim with
  | some claim =>
      if known.laterClaim claim then ({ known with claim := some claim }, true) else (known, false)
  | none => (known, false)

/-- One more address: past the most, the best are kept. -/
def push (candidates : List (Candidate S)) (candidate : Candidate S) : List (Candidate S) :=
  if maxAddresses < (candidates ++ [candidate]).length then
    (sortBestFirst isPrivateAddress (candidates ++ [candidate])).take maxAddresses
  else candidates ++ [candidate]

/-- Add one candidate. The one door into the book. -/
def insert (c : Contact S) (device : DeviceId) (address : Str) (presence : Option (SignedPresence S))
    (claim : Option (SignedClaim S)) (worked : Option ℕ) : Contact S :=
  if c.book[device]?.isNone ∧ maxDevices ≤ c.book.size then c
  else
    let candidates := c.book[device]?.getD []
    match candidates.find? fun known => known.address = address with
    | some known =>
      let (renewed, presenceChanged) := known.renewPresence presence
      let (renewed, claimChanged) := renewed.renewClaim claim
      { c with
        book := c.book.insert device (amend address (fun _ => renewed) candidates)
        changed := c.changed || presenceChanged || claimChanged }
    | none =>
      { c with
        quiet := match c.quiet[device]? with
          | some quiet => c.quiet.insert device { quiet with news := true }
          | none => c.quiet
        book := c.book.insert device (push isPrivateAddress candidates
          { address := address, worked := worked, presence := presence,
            claim := presence.bind fun _ => claim, proven := false })
        changed := true }

/-- Whether the list has an address of a missing device that the book does not hold. -/
def hasNews (c : Contact S) (found : List (DeviceId × Str)) : Bool :=
  found.any fun (device, address) =>
    c.missing.contains device && c.book[device]?.all fun held => !held.any fun candidate =>
      candidate.address = address

/-- Drop the devices that are not listed. -/
def keepListed (c : Contact S) (found : List (DeviceId × Str)) : Contact S :=
  let book := c.book.filter fun device _ => device ∈ found.map Prod.fst
  { c with
    book := book
    changed := c.changed || decide (book.size ≠ c.book.size)
    quiet := c.quiet.filter fun device _ => device ∈ found.map Prod.fst }

/-- One address of the list, with its signature and its claim if it came with them. -/
def insertFound (presences : List (SignedPresence S)) (claimed : List (ClaimedPresence S))
    (c : Contact S) (found : DeviceId × Str) : Contact S :=
  let presence := presences.find? fun signed =>
    signed.presence.device = found.1 ∧ signed.presence.address = found.2
  let claim := (claimed.find? fun row => presence = some row.presence).map ClaimedPresence.claim
  c.insert isPrivateAddress found.1 found.2 presence claim none

/-- Take in the coordinator's list of the account's other devices. -/
def read (c : Contact S) (found : List (DeviceId × Str)) (presences : List (SignedPresence S))
    (claimed : List (ClaimedPresence S)) (now : ℕ) : Contact S :=
  let answered := { c with readAt := some now, missed := false }
  let fellBack := if c.hasNews found then answered.fallBack now else answered
  found.foldl (insertFound isPrivateAddress presences claimed) (fellBack.keepListed found)

/-- Record that a sync at this address completed: later than every success in the book. -/
def worked (c : Contact S) (device : DeviceId) (address : Str) (nowUnix : ℕ) : Contact S :=
  let latest := ((c.book.toList.flatMap Prod.snd).filterMap Candidate.worked).max?
  let at' := latest.elim nowUnix fun latest => max nowUnix (saturatingAdd latest 1)
  let quiet := c.quiet.erase device
  match c.book[device]? with
  | none => { c with quiet := quiet }
  | some candidates =>
    if candidates.any fun candidate => candidate.address = address then
      { c with
        quiet := quiet
        book := c.book.insert device
          (amend address (fun candidate => { candidate with worked := some at', proven := true })
            candidates)
        changed := true }
    else { c with quiet := quiet }

/-- One more round in which the device answered nowhere. -/
def missedAt (quiet : Option Quiet) (round now : ℕ) : Quiet :=
  let quiet := { quiet.getD ⟨0, round, now, false⟩ with news := false }
  if quiet.misses = 0 ∨ quiet.round ≠ round then
    { quiet with misses := quiet.misses + 1, round := round, until' :=
      now + quietFor (quiet.misses + 1) }
  else quiet

/-- Record that the device did not answer at this address. -/
def failed (c : Contact S) (device : DeviceId) (address : Str) (now : ℕ) : Contact S :=
  match c.book[device]? with
  | none => c
  | some candidates =>
    if candidates.any fun candidate => candidate.address = address then
      { c with
        book := c.book.insert device
          (amend address (fun candidate => { candidate with proven := false }) candidates)
        quiet := c.quiet.insert device (missedAt c.quiet[device]? c.rounds now) }
    else c

/-- Whether a relayed row is no older than what the book holds for its device; a presence dated
past the horizon counts for nothing. -/
def fresh (held : List (Candidate S)) (row : ClaimedPresence S) (horizon : ℕ) : Bool :=
  let latestClaim :=
    (held.filterMap fun candidate => candidate.claim.map fun claim => claim.claim.issuedUnix).max?
  let latestPresence := ((held.filterMap fun candidate => candidate.presence.map fun presence =>
    presence.presence.atUnix).filter fun at' => at' ≤ horizon).max?
  latestClaim.any (fun at' => at' ≤ row.claim.claim.issuedUnix) &&
    latestPresence.all fun at' => at' ≤ row.presence.presence.atUnix

/-- One row that a peer relayed; `none` is one that does not decode. -/
def relayRow (owner : UserId) (me : DeviceId) (now : ℕ) (state : Contact S × Relayed)
    (row : Option (ClaimedPresence S)) : Contact S × Relayed :=
  let (c, outcome) := state
  match row with
  | none => (c, { outcome with forged := outcome.forged + 1 })
  | some row =>
    let horizon := saturatingAdd now maxClockSkew
    let device := row.presence.presence.device
    if device = me then (c, outcome)
    else if !(row.verifyFor owner).isOk || decide (horizon < row.presence.presence.atUnix) then
      (c, { outcome with forged := outcome.forged + 1 })
    else match c.book[device]? with
      | none => (c, { outcome with unknown := outcome.unknown + 1 })
      | some held =>
        if fresh held row horizon then
          (c.insert isPrivateAddress device row.presence.presence.address (some row.presence)
            (some row.claim) none,
            { outcome with kept := outcome.kept + 1 })
        else (c, { outcome with stale := outcome.stale + 1 })

/-- Take in rows that a peer relayed. -/
def relayed (c : Contact S) (rows : List (Option (ClaimedPresence S))) (owner : UserId)
    (me : DeviceId) (now : ℕ) :
    Contact S × Relayed :=
  rows.foldl (relayRow isPrivateAddress owner me now) (c, ⟨0, 0, 0, 0⟩)

/-! ### The file -/

/-- One entry of the file, checked. -/
def loadEntry (owner : UserId) (c : Contact S) (entry : BookEntry S) : Contact S :=
  if !entry.presence.verifyOrigin.isOk then c
  else
    let claim := entry.claim.filter fun claim =>
      (ClaimedPresence.mk entry.presence claim).verifyFor owner |>.isOk
    c.insert isPrivateAddress entry.presence.presence.device entry.presence.presence.address
      (some entry.presence) claim entry.worked

/-- The contact a daemon starts with: the book in the file, or an empty one. -/
def load (file : Option (BookFile S)) (owner : UserId) : Contact S :=
  match file with
  | none => new
  | some file =>
    if file.version ≠ bookVersion then new
    else
      let start : Contact S := { new with signs := file.signs }
      { file.entries.foldl (loadEntry isPrivateAddress owner) start with changed := false }

/-- Every address known, in dialling order. -/
def candidates (c : Contact S) : List (DeviceId × Str) :=
  c.book.toList.flatMap fun r => (sortBestFirst isPrivateAddress r.2).map fun candidate =>
    (r.1, candidate.address)

/-! ### Rounds -/

/-- What happens to a contact, with the readings of the clock: the coordinator is asked, if
anything is due; it accepts a publication, or answers a read; the round has dialled everybody; a
peer relays rows; a device answers, or does not, at an address. -/
inductive Event (S : Seals)
  | ask (address : Option Str) (dueAt askedAt : ℕ)
  | published (address : Option Str) (now : ℕ)
  | read (found : List (DeviceId × Str)) (presences : List (SignedPresence S))
      (claimed : List (ClaimedPresence S)) (now : ℕ)
  | signed
  | reached (reached : List DeviceId) (now : ℕ)
  | relayed (rows : List (Option (ClaimedPresence S))) (owner : UserId) (me : DeviceId) (nowUnix : ℕ)
  | worked (device : DeviceId) (address : Str) (nowUnix : ℕ)
  | failed (device : DeviceId) (address : Str) (now : ℕ)

/-- The readings of the clock of instants. -/
def Event.times : Event S → List ℕ
  | .ask _ dueAt askedAt => [dueAt, askedAt]
  | .published _ now => [now]
  | .read _ _ _ now => [now]
  | .signed => []
  | .reached _ now => [now]
  | .relayed .. => []
  | .worked .. => []
  | .failed _ _ now => [now]

def step (c : Contact S) : Event S → Contact S
  | .ask address dueAt askedAt =>
    if (c.due address dueAt).any then c.asked (c.due address dueAt) askedAt else c
  | .published address now => c.publishedFor address now
  | .read found presences claimed now => c.read isPrivateAddress found presences claimed now
  | .signed => c.signed
  | .reached reached now => c.roundReached reached now
  | .relayed rows owner me nowUnix => (c.relayed isPrivateAddress rows owner me nowUnix).1
  | .worked device address nowUnix => c.worked device address nowUnix
  | .failed device address now => c.failed device address now

/-- A read asked for that is no publication, after one was answered. -/
def rereadAt (c : Contact S) : Event S → Option ℕ
  | .ask address dueAt askedAt =>
    if c.readAt.isSome ∧ (c.due address dueAt).read ∧ !(c.due address dueAt).publish
    then some askedAt else none
  | _ => none

/-- The times of all such reads in a run, latest first. -/
def rereads : Contact S → List ℕ → List (Event S) → List ℕ
  | _, log, [] => log
  | c, log, event :: events =>
    rereads (c.step isPrivateAddress event) ((c.rereadAt event).toList ++ log) events

end

/-! ### The pace of reads -/

/-- When the coordinator was last asked, or answered. -/
def lastAsked (c : Contact S) : ℕ := (max c.readAt c.askedAt).getD 0

/-- How long after that a miss makes it ask again. -/
def wait (c : Contact S) : ℕ := c.missWait.getD rereadAfterMiss

variable {c : Contact S}

theorem wait_of_none (h : c.missWait = none) : c.wait = rereadAfterMiss := by
  rw [wait, h, Option.getD_none]

/-- The back-off that the schedule is. -/
def backoff (c : Contact S) (clock : ℕ) : Backoff.State where
  last := c.lastAsked
  wait := c.wait
  reset := c.resetAt
  clock := clock

/-- The reads so far kept the pace, and the wait is one the doubling gives. -/
structure Scheduled (c : Contact S) (clock : ℕ) (log : List ℕ) : Prop where
  paced : Backoff.Paced rereadAfterMiss resetFloor (c.backoff clock) log
  most : c.wait ≤ publishEvery

theorem secs_le {m n : ℕ} (h : m ≤ n) : secs m ≤ secs n := Nat.mul_le_mul_left _ h

theorem reread_le_publish : rereadAfterMiss ≤ publishEvery := by
  unfold rereadAfterMiss publishEvery
  exact secs_le (by decide)

theorem resetFloor_pos : 0 < resetFloor := by
  unfold resetFloor secs
  omega

theorem scheduled_new (clock : ℕ) : Scheduled (new : Contact S) clock [] := by
  have hwait : (new : Contact S).wait = rereadAfterMiss := wait_of_none rfl
  exact ⟨Backoff.Paced.nil hwait.ge (Nat.zero_le _), hwait.trans_le reread_le_publish⟩

/-- The schedule is the same: the book and the rest may have changed. -/
structure SameSchedule (c c' : Contact S) : Prop where
  readAt : c'.readAt = c.readAt
  askedAt : c'.askedAt = c.askedAt
  missWait : c'.missWait = c.missWait
  resetAt : c'.resetAt = c.resetAt

theorem SameSchedule.trans {c c' c'' : Contact S} (h : SameSchedule c c') (h' : SameSchedule c' c'') :
    SameSchedule c c'' :=
  ⟨h'.readAt.trans h.readAt, h'.askedAt.trans h.askedAt, h'.missWait.trans h.missWait,
    h'.resetAt.trans h.resetAt⟩

variable {log : List ℕ} {clock : ℕ}

theorem Scheduled.congr {c c' : Contact S} (h : Scheduled c clock log)
    (hsame : SameSchedule c c') : Scheduled c' clock log := by
  have hlast : c'.lastAsked = c.lastAsked := by rw [lastAsked, lastAsked, hsame.readAt, hsame.askedAt]
  have hwait : c'.wait = c.wait := by rw [wait, wait, hsame.missWait]
  exact ⟨h.paced.later hlast.ge hwait.ge hsame.resetAt le_rfl (hlast.trans_le h.paced.past),
    hwait.trans_le h.most⟩

variable {clock now : ℕ}

theorem Scheduled.tick (h : Scheduled c clock log) (hclock : clock ≤ now) : Scheduled c now log:=
  ⟨h.paced.later le_rfl le_rfl rfl hclock (h.paced.past.trans hclock), h.most⟩

theorem le_getD_max_left (a b : Option ℕ) : a.getD 0 ≤ (max a b).getD 0 := by
  cases a <;> cases b <;> simp

theorem le_getD_max_right (a b : Option ℕ) : b.getD 0 ≤ (max a b).getD 0 := by
  cases a <;> cases b <;> simp

variable {now : ℕ}

theorem max_some_of_le {a : Option ℕ} (h : a.getD 0 ≤ now) :
    (max a (some now)).getD 0 = now ∧ (max (some now) a).getD 0 = now := by
  cases a with
  | none => simp
  | some x =>
    have hx : x ≤ now := h
    simp [hx]

theorem Scheduled.fallBack (h : Scheduled c clock log)
    (hclock : clock ≤ now) : Scheduled (c.fallBack now) now log := by
  unfold Contact.fallBack
  split_ifs with hnone hfloor
  · exact h.tick hclock
  · have hfloored : ∀ r ∈ c.resetAt, r + resetFloor ≤ now := by
      intro r hr
      simp only [Option.mem_def.mp hr, Option.all_some, decide_eq_true_eq] at hfloor
      have hpos := resetFloor_pos
      omega
    have hwait : ({ c with missWait := none, resetAt := some now } : Contact S).wait = rereadAfterMiss :=
      wait_of_none rfl
    exact ⟨h.paced.fallBack hfloored hclock rfl hwait rfl rfl, hwait.trans_le reread_le_publish⟩
  · exact h.tick hclock

theorem readAt_le (h : Scheduled c clock log) :
    c.readAt.getD 0 ≤ clock :=
  (le_getD_max_left c.readAt c.askedAt).trans h.paced.past

theorem asked_lastAsked {due : Due} (hread : due.read = true)
    (hnow : c.readAt.getD 0 ≤ now) : (c.asked due now).lastAsked = now := by
  rw [asked, if_pos hread]
  exact (max_some_of_le hnow).1

theorem asked_wait {due : Due} (hread : due.read = true) :
    (c.asked due now).wait = if c.missed then min (2 * c.wait) publishEvery else c.wait := by
  rw [asked, if_pos hread, wait]
  dsimp only
  split_ifs
  · rw [Option.getD_some, wait]
  · rfl

theorem asked_resetAt (c : Contact S) (due : Due) (now : ℕ) :
    (c.asked due now).resetAt = c.resetAt := by
  unfold asked
  split_ifs <;> rfl

/-- Asking puts the next time off, answered or not. -/
theorem Scheduled.asked (h : Scheduled c clock log)
    (hclock : clock ≤ now) (due : Due) : Scheduled (c.asked due now) now log := by
  by_cases hread : due.read = true
  · have hlast := asked_lastAsked hread ((readAt_le h).trans hclock)
    have hmost := h.most
    have hpast : c.lastAsked ≤ clock := h.paced.past
    have hwait : c.wait ≤ (c.asked due now).wait ∧ (c.asked due now).wait ≤ publishEvery := by
      rw [asked_wait hread]
      split_ifs
      · exact ⟨le_min (by omega) hmost, min_le_right _ _⟩
      · exact ⟨le_rfl, hmost⟩
    refine ⟨h.paced.later ?_ hwait.1 (asked_resetAt c due now) hclock hlast.le, hwait.2⟩
    exact (hpast.trans hclock).trans hlast.ge
  · rw [Contact.asked, if_neg hread]
    exact h.tick hclock

theorem floor_le : resetFloor ≤ 5 * rereadAfterMiss := by
  unfold resetFloor rereadAfterMiss secs
  omega

theorem four_le : 4 * rereadAfterMiss ≤ publishEvery := by
  unfold publishEvery rereadAfterMiss secs
  omega

/-- A read that is no publication is due only after a miss, and its wait. -/
theorem due_reread {address : Option Str} (hanswered : c.readAt.isSome = true)
    (hread : (c.due address now).read = true) (hpublish : (c.due address now).publish = false) :
    c.missed = true ∧ c.wait ≤ now - c.lastAsked := by
  obtain ⟨at', hat⟩ := Option.isSome_iff_exists.mp hanswered
  have hreread : (c.missed && (max c.readAt c.askedAt).all fun at' => c.wait ≤ now - at') = true := by
    have hsplit : (c.due address now).read = ((c.due address now).publish || c.readAt.isNone ||
        (c.missed && (max c.readAt c.askedAt).all fun at' => c.wait ≤ now - at')) := rfl
    rw [hread, hpublish, hat] at hsplit
    simpa [hat] using hsplit
  obtain ⟨hmissed, hwait⟩ := Bool.and_eq_true_iff.mp hreread
  refine ⟨hmissed, ?_⟩
  cases hlast : max c.readAt c.askedAt with
  | none => cases hasked : c.askedAt <;> simp [hat, hasked] at hlast
  | some last =>
    rw [hlast] at hwait
    rw [lastAsked, hlast]
    exact of_decide_eq_true hwait

/-- Such a read, once asked for. -/
theorem Scheduled.reread {clock dueAt askedAt : ℕ} (h : Scheduled c clock log)
    (hdue : clock ≤ dueAt) (hasked : dueAt ≤ askedAt) {address : Option Str}
    (hanswered : c.readAt.isSome = true)
    (hread : (c.due address dueAt).read = true) (hpublish : (c.due address dueAt).publish = false) :
    Scheduled (c.asked (c.due address dueAt) askedAt) askedAt (askedAt :: log) := by
  obtain ⟨hmissed, hwait⟩ := due_reread hanswered hread hpublish
  have hfirst : rereadAfterMiss ≤ c.wait := h.paced.wait
  have hpos : 0 < rereadAfterMiss := by
    unfold rereadAfterMiss secs
    omega
  have hlast := asked_lastAsked hread ((readAt_le h).trans (hdue.trans hasked))
  have hdoubled : (c.asked (c.due address dueAt) askedAt).wait = min (2 * c.wait) publishEvery := by
    rw [asked_wait hread, if_pos hmissed]
  have hnext : c.lastAsked + c.wait ≤ askedAt := by omega
  refine ⟨h.paced.ask floor_le four_le hnext (hdue.trans hasked) hlast hdoubled.ge
    (asked_resetAt _ _ _) rfl, ?_⟩
  exact hdoubled.trans_le (min_le_right _ _)

section
variable (isPrivateAddress : Str → Bool)

theorem insert_same (c : Contact S) (device : DeviceId) (address : Str)
    (presence : Option (SignedPresence S)) (claim : Option (SignedClaim S)) (worked : Option ℕ) :
    SameSchedule c (c.insert isPrivateAddress device address presence claim worked) := by
  unfold insert
  split_ifs
  · exact ⟨rfl, rfl, rfl, rfl⟩
  · dsimp only
    split <;> exact ⟨rfl, rfl, rfl, rfl⟩

theorem keepListed_same (c : Contact S) (found : List (DeviceId × Str)) :
    SameSchedule c (c.keepListed found) :=
  ⟨rfl, rfl, rfl, rfl⟩

theorem foldl_insertFound_same (presences : List (SignedPresence S))
    (claimed : List (ClaimedPresence S)) :
    ∀ (found : List (DeviceId × Str)) (c : Contact S),
      SameSchedule c (found.foldl (insertFound isPrivateAddress presences claimed) c)
  | [], _ => ⟨rfl, rfl, rfl, rfl⟩
  | row :: found, c =>
    (insert_same isPrivateAddress c row.1 row.2 _ _ none).trans
      (foldl_insertFound_same presences claimed found _)

theorem relayRow_same (owner : UserId) (me : DeviceId) (now : ℕ) (state : Contact S × Relayed)
    (row : Option (ClaimedPresence S)) :
    SameSchedule state.1 (relayRow isPrivateAddress owner me now state row).1 := by
  obtain ⟨c, outcome⟩ := state
  cases row with
  | none => exact ⟨rfl, rfl, rfl, rfl⟩
  | some row =>
    rw [relayRow]
    dsimp only
    split_ifs
    · exact ⟨rfl, rfl, rfl, rfl⟩
    · exact ⟨rfl, rfl, rfl, rfl⟩
    · split
      · exact ⟨rfl, rfl, rfl, rfl⟩
      · split_ifs
        · exact insert_same isPrivateAddress c row.presence.presence.device
            row.presence.presence.address
            (some row.presence) (some row.claim) none
        · exact ⟨rfl, rfl, rfl, rfl⟩

theorem foldl_relayRow_same (owner : UserId) (me : DeviceId) (now : ℕ) :
    ∀ (rows : List (Option (ClaimedPresence S))) (state : Contact S × Relayed),
      SameSchedule state.1 (rows.foldl (relayRow isPrivateAddress owner me now) state).1
  | [], _ => ⟨rfl, rfl, rfl, rfl⟩
  | row :: rows, state =>
    (relayRow_same isPrivateAddress owner me now state row).trans
      (foldl_relayRow_same owner me now rows _)

theorem worked_same (c : Contact S) (device : DeviceId) (address : Str) (now : ℕ) :
    SameSchedule c (c.worked device address now) := by
  unfold worked
  dsimp only
  split
  · exact ⟨rfl, rfl, rfl, rfl⟩
  · split_ifs <;> exact ⟨rfl, rfl, rfl, rfl⟩

theorem failed_same (c : Contact S) (device : DeviceId) (address : Str) (now : ℕ) :
    SameSchedule c (c.failed device address now) := by
  unfold failed
  split
  · exact ⟨rfl, rfl, rfl, rfl⟩
  · split_ifs <;> exact ⟨rfl, rfl, rfl, rfl⟩

theorem Scheduled.read (h : Scheduled c clock log)
    (hclock : clock ≤ now) (found : List (DeviceId × Str)) (presences : List (SignedPresence S))
    (claimed : List (ClaimedPresence S)) :
    Scheduled (c.read isPrivateAddress found presences claimed now) now log := by
  have hpast : c.lastAsked ≤ clock := h.paced.past
  have hlast : ({ c with readAt := some now, missed := false } : Contact S).lastAsked = now := by
    refine (max_some_of_le ?_).2
    exact ((le_getD_max_right c.readAt c.askedAt).trans hpast).trans hclock
  have hanswered : Scheduled ({ c with readAt := some now, missed := false } : Contact S) now log :=
    ⟨h.paced.later ((hpast.trans hclock).trans hlast.ge) le_rfl rfl hclock hlast.le, h.most⟩
  have hfell : Scheduled (if c.hasNews found then
      ({ c with readAt := some now, missed := false } : Contact S).fallBack now
      else { c with readAt := some now, missed := false }) now log := by
    split_ifs
    · exact hanswered.fallBack le_rfl
    · exact hanswered
  rw [Contact.read]
  exact hfell.congr ((keepListed_same _ found).trans
    (foldl_insertFound_same isPrivateAddress presences claimed found _))

theorem Scheduled.reached (h : Scheduled c clock log)
    (hclock : clock ≤ now) (reached : List DeviceId) :
    Scheduled (c.roundReached reached now) now log := by
  unfold roundReached
  dsimp only
  split_ifs
  · exact (h.fallBack hclock).congr ⟨rfl, rfl, rfl, rfl⟩
  · exact (h.tick hclock).congr ⟨rfl, rfl, rfl, rfl⟩

/-- **Whatever happens to a contact keeps the pace of its reads.** -/
theorem step_paced (h : Scheduled c clock log) (event : Event S)
    (hclock : ∀ t ∈ event.times, clock ≤ t) (hordered : event.times.Pairwise (· ≤ ·)) :
    Scheduled (c.step isPrivateAddress event) (event.times.getLastD clock)
      ((c.rereadAt event).toList ++ log) := by
  cases event with
  | ask address dueAt askedAt =>
    have hdue : clock ≤ dueAt := hclock dueAt (by simp [Event.times])
    have hasked : dueAt ≤ askedAt := by simpa [Event.times] using hordered
    rw [step, rereadAt]
    by_cases hreread : c.readAt.isSome ∧ (c.due address dueAt).read ∧ !(c.due address dueAt).publish
    · obtain ⟨hanswered, hread, hpublish⟩ := hreread
      have hany : (c.due address dueAt).any = true := by simp [Due.any, hread]
      rw [if_pos hany, if_pos ⟨hanswered, hread, hpublish⟩]
      exact h.reread hdue hasked hanswered hread (by simpa using hpublish)
    · rw [if_neg hreread]
      split_ifs
      · exact h.asked (hdue.trans hasked) _
      · exact h.tick (hdue.trans hasked)
  | published address now =>
      exact (h.tick (hclock now (by simp [Event.times]))).congr ⟨rfl, rfl, rfl, rfl⟩
  | read found presences claimed now =>
    exact h.read isPrivateAddress (hclock now (by simp [Event.times])) found presences claimed
  | signed => exact h.congr ⟨rfl, rfl, rfl, rfl⟩
  | reached reached now => exact h.reached (hclock now (by simp [Event.times])) reached
  | relayed rows owner me nowUnix =>
    exact h.congr (foldl_relayRow_same isPrivateAddress owner me nowUnix rows (c, ⟨0, 0, 0, 0⟩))
  | worked device address nowUnix => exact h.congr (worked_same c device address nowUnix)
  | failed device address now =>
    exact (h.tick (hclock now (by simp [Event.times]))).congr (failed_same c device address now)

/-- The clock never goes back over a run. -/
def Steady (events : List (Event S)) : Prop := (events.flatMap Event.times).Pairwise (· ≤ ·)

theorem rereads_paced : ∀ (events : List (Event S)) (c : Contact S) (clock : ℕ) (log : List ℕ),
    Scheduled c clock log → (∀ t ∈ events.flatMap Event.times, clock ≤ t) → Steady events →
    ∃ (c' : Contact S) (clock' : ℕ), Scheduled c' clock' (rereads isPrivateAddress c log events)
  | [], c, clock, _, h, _, _ => ⟨c, clock, h⟩
  | event :: events, c, clock, log, h, hclock, hsteady => by
    obtain ⟨hevent, hrest, hbefore⟩ := List.pairwise_append.mp hsteady
    refine rereads_paced events _ (event.times.getLastD clock) _
      (step_paced isPrivateAddress h event (fun t ht => hclock t (List.mem_append_left _ ht))
        hevent) ?_ hrest
    intro t ht
    rcases List.eq_nil_or_concat' event.times with hnil | ⟨earlier, last, hlast⟩
    · rw [hnil]
      exact hclock t (List.mem_append_right _ ht)
    · rw [hlast, List.getLastD_concat]
      exact hbefore last (by simp [hlast]) t ht

theorem load_same (file : Option (BookFile S)) (owner : UserId) :
    SameSchedule new (load isPrivateAddress file owner) := by
  have hentries : ∀ (entries : List (BookEntry S)) (c : Contact S),
      SameSchedule c (entries.foldl (loadEntry isPrivateAddress owner) c) := by
    intro entries
    induction entries with
    | nil => exact fun _ => ⟨rfl, rfl, rfl, rfl⟩
    | cons entry entries ih =>
      intro c
      refine SameSchedule.trans ?_ (ih _)
      unfold loadEntry
      split_ifs
      · exact ⟨rfl, rfl, rfl, rfl⟩
      · exact insert_same isPrivateAddress c _ _ _ _ _
  unfold load
  split
  · exact ⟨rfl, rfl, rfl, rfl⟩
  · split_ifs
    · exact ⟨rfl, rfl, rfl, rfl⟩
    · obtain ⟨hread, hasked, hwait, hreset⟩ :=
        hentries ‹BookFile S›.entries { new with signs := ‹BookFile S›.signs }
      exact ⟨hread, hasked, hwait, hreset⟩

/-- **A silent network does not hammer the coordinator.** Whatever it answers and whoever is
reached, from whatever book the node starts, in any ten minutes it asks for at most three reads
that are no publications once a read was answered. -/
theorem reads_spread (file : Option (BookFile S)) (owner : UserId) (events : List (Event S))
    (hsteady : Steady events) (from' : ℕ) :
    (rereads isPrivateAddress (load isPrivateAddress file owner) [] events).countP
      (fun t => from' ≤ t ∧ t < from' + resetFloor) ≤ 3 := by
  have hstart : Scheduled (load isPrivateAddress file owner) 0 [] :=
    (scheduled_new 0).congr (load_same isPrivateAddress file owner)
  obtain ⟨_, _, h⟩ :=
    rereads_paced isPrivateAddress events _ 0 [] hstart (fun t _ => Nat.zero_le t) hsteady
  exact h.paced.count_le from'

end

/-- Seals of one signature, which is always good. -/
def oneSeal : Seals where
  Signature := Unit
  claim _ _ := true
  presence _ _ := true
  decEq := inferInstanceAs (DecidableEq Unit)

/-- A node that never reaches the one device listed, and asks whenever a read is due. -/
def unanswered : List (Event oneSeal) :=
  [.ask none 0 0, .published none 0, .read [(1, ['a'])] [] [] 0, .reached [] 1,
    .ask none (secs 119) (secs 119), .ask none (secs 120) (secs 120), .ask none (secs 359) (secs 359),
    .ask none (secs 360) (secs 360)]

theorem reads_spread_unanswered :
    Steady unanswered ∧
      rereads (fun _ => false) (load (fun _ => false) none 0) [] unanswered = [secs 360, secs 120] ∧
      (rereads (fun _ => false) (load (fun _ => false) none 0) [] unanswered).countP
        (fun t => 0 ≤ t ∧ t < 0 + resetFloor) ≤ 3 := by
  have hsteady : Steady unanswered := by
    unfold Steady
    decide +kernel
  exact ⟨hsteady, by decide +kernel, reads_spread (fun _ => false) none 0 unanswered hsteady 0⟩

end Contact

end Itsanas
