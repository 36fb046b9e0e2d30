/-
# The claims a host has checked

`itsanas-node/src/owners.rs`: how much a host stores for each account. A device presents
its account's signed claim, the coordinator is asked about it, and a store is admitted
within what the account's pledges earn; what goes beyond what its devices have proved is
lent on a promise, out of a share of the host's pledge that all accounts have together.

The coordinator's word that a device was withdrawn is kept in the row of the device. While
the row is there, nothing lifts it. But a withdrawal that the device itself presents, and a
newcomer when the book is full, take the row out, and then a live claim of the device is
taken like that of any newcomer (`ClaimBook.withdrawn_device_is_back`). So the word is final
as long as the device presents no live claim while it has no row (`ClaimBook.withdrawal_final`).
-/
import Itsanas.Symbolic
import Itsanas.Depot

namespace Itsanas

/-- An account's statement that a device is its own. -/
structure NodeClaim where
  owner : UserId
  device : DeviceId
  pledgedBytes : ℕ
  issuedUnix : ℕ
  /-- Whether this claim withdraws the device. -/
  revoked : Bool
  deriving DecidableEq

/-- How signed claims are read and checked. -/
structure ClaimCodec where
  Signature : Type
  decode : Bytes → Option (NodeClaim × Signature)
  /-- Whether the account the claim names signed it. -/
  verifyOrigin : NodeClaim → Signature → Bool

/-- What the coordinator last said about a device. -/
inductive Standing
  | unconfirmed
  | live (since : ℕ)
  | withdrawn
  deriving DecidableEq

/-- Whether the coordinator confirmed the device within `within`. -/
def Standing.confirmed (within now : ℕ) : Standing → Bool
  | .live since => now - since < within
  | _ => false

/-- What one answer of the coordinator means. -/
inductive Verdict
  | live
  | withdrawn
  | unenrolled
  | noAnswer
  deriving DecidableEq

/-- A device in the book. -/
structure Held where
  owner : UserId
  pledged : ℕ
  issued : ℕ
  claim : Bytes
  standing : Standing
  presented : ℕ
  /-- When the coordinator was last asked, and whether it holds nothing for the device. -/
  asked : Option (ℕ × Bool)
  deriving DecidableEq

/-- The total lent on promises, and when it was counted. -/
structure Lent where
  total : ℕ
  counted : Option ℕ
  deriving DecidableEq

/-- Why a store is not admitted. -/
inductive NotAdmitted
  | updateRequired
  | otherAccount
  | withdrawn
  | unconfirmed
  /-- The account's room is used up, with the figures of the refusal. -/
  | full (contradicted : Bool) (mine allowance pledged proved : ℕ)
  | unprovenFull
  deriving DecidableEq

def NotAdmitted.text : NotAdmitted → String
  | .updateRequired =>
    "this host stores only for devices that present their account's claim: update ITSaNAS"
  | .otherAccount => "this device's claim is for another account"
  | .withdrawn => "the coordinator says this device was withdrawn by its account"
  | .unconfirmed =>
    "this host has not confirmed this device with the coordinator " ++
      "lately; it stores here once it has (the next round, if the coordinator answers)"
  | .full contradicted mine allowance pledged proved =>
    let why :=
      if contradicted then
        "a device of this account failed this host's storage audits; " ++
          "it stores here only what its devices have proved they hold for this host"
      else "this account has stored here what its pledge earns"
    s!"{why}: {mine} of {allowance} bytes (pledged {pledged}, proved {proved})"
  | .unprovenFull => "this host lends no more on promises alone: host something for it to earn more"

/-- The claims a host has checked, by device. Moments of its clock are in nanoseconds. -/
structure ClaimBook where
  claims : Table DeviceId Held
  lent : Lent
  capacity : ℕ
  /-- The host's own account, if it asks the coordinator when a device presents. -/
  asking : Option UserId
  /-- When it asked lately. -/
  asked : List ℕ

/-- How much a pledge of so many bytes earns: thirty for seventy. -/
def roomEarned (pledged : ℕ) : ℕ := min (pledged * 30 / 70) u64Max

variable {K : Crypto}

namespace Store

/-- How many chunks are live. -/
def liveChunkCount (st : Store K) : ℕ := st.index.tree.chunkRefs.size

/-- About how many bytes of this node's data `device` is recorded as holding. -/
def bytesHeldBy (st : Store K) (device : DeviceId) : ℕ :=
  let records := st.index.ledger.heldBy device
  if records = 0 then 0
  else min (records * (st.localBytes.2 / max st.liveChunkCount 1)) u64Max

/-- The audit record of `device`. -/
def reliability (st : Store K) (device : DeviceId) : Reliability :=
  (st.index.ledger.reliability[device]?).getD .new

/-- When `device` last refused a chunk for a full pledge. -/
def peerFullSince (st : Store K) (device : DeviceId) : Option ℕ := st.index.ledger.peerFull[device]?

end Store

namespace ClaimBook

def second : ℕ := 10 ^ 9

def maxClaims : ℕ := 4096

def maxDevicesPerAccount : ℕ := 10

def standingFor : ℕ := 2 * 60 * 60 * second

def recountEvery : ℕ := 60 * second

def recountOnRefusal : ℕ := second

def asksPerMinute : ℕ := 30

def askingAtOnce : ℕ := 4

/-- In seconds of the wall clock. -/
def fullRetry : ℕ := 60 * 60

/-- An empty book. -/
def withCapacity (capacity : ℕ) (asking : Option UserId) :
    ClaimBook := ⟨∅, ⟨0, none⟩, capacity, asking, []⟩

/-- Whether one more question fits in the last minute, counted if it does. -/
def mayAsk (book : ClaimBook) (now : ℕ) : ClaimBook × Bool :=
  let lately := book.asked.dropWhile fun at' => 60 * second ≤ now - at'
  if asksPerMinute ≤ lately.length then ({ book with asked := lately }, false)
  else ({ book with asked := lately ++ [now] }, true)

/-- What the coordinator answered about `device`. -/
def note (book : ClaimBook) (device : DeviceId) (verdict : Verdict) (at' : ℕ) : ClaimBook :=
  match book.claims[device]? with
  | none => book
  | some held =>
    let standing :=
      match held.standing, verdict with
      | .withdrawn, _ => .withdrawn
      | _, .withdrawn => .withdrawn
      | _, .live => .live at'
      | _, .unenrolled => .unconfirmed
      | kept, .noAnswer => kept
    { book with
      claims := book.claims.insert device
        { held with asked := some (at', verdict = .unenrolled), standing := standing } }

/-- Write the row of a device and ask the coordinator about it, if that was never done and
there is room for a question. `inFlight` is how many questions other connections have out,
`verdict` what the coordinator answers. -/
def enter (book : ClaimBook) (caller : DeviceId) (held : Held) (now inFlight : ℕ) (verdict : Verdict) :
    ClaimBook :=
  let entered := { book with claims := book.claims.insert caller held }
  match book.asking with
  | none => entered
  | some own =>
    if held.owner ≠ own ∧ ¬Standing.confirmed (standingFor / 2) now held.standing ∧
        held.asked = none then
      let (asked, may) := entered.mayAsk now
      if may ∧ inFlight < askingAtOnce then asked.note caller verdict now else asked
    else entered

/-- The first device whose account holds nothing here. -/
def firstEmpty (book : ClaimBook) (vault : Depot K) : Option DeviceId :=
  (book.claims.toList.find? fun r => vault.heldBytesFor r.2.owner = 0).map Prod.fst

/-- Take a claim `caller` presented. -/
def take (C : ClaimCodec) (book : ClaimBook) (caller : DeviceId) (bytes : Bytes) (vault : Depot K)
    (now inFlight : ℕ) (verdict : Verdict) : ClaimBook × Except String Unit :=
  match C.decode bytes with
  | none => (book, .error "not a claim")
  | some (claim, signature) =>
    if !C.verifyOrigin claim signature then (book, .error "the node claim signature does not verify")
    else if claim.device ≠ caller then
      (book, .error "the claim is for another device than the one connected")
    else if claim.revoked then
      ({ book with claims := book.claims.erase caller },
        .error "this device was withdrawn by its account")
    else
      let row (standing : Standing) (presented : ℕ) (asked : Option (ℕ × Bool)) : Held :=
        ⟨claim.owner, claim.pledgedBytes, claim.issuedUnix, bytes, standing, presented, asked⟩
      match book.claims[caller]? with
      | some held =>
        if held.owner ≠ claim.owner then
          (book, .error "this device is already claimed by another account")
        else if held.standing = .withdrawn then (book, .error NotAdmitted.withdrawn.text)
        else if claim.issuedUnix < held.issued then (book, .ok ())
        else
          (book.enter caller (row held.standing held.presented held.asked) now inFlight verdict,
            .ok ())
      | none =>
        let siblings := book.claims.toList.countP fun r => r.2.owner = claim.owner
        if maxDevicesPerAccount ≤ siblings then
          (book, .error s!"this account already has its {maxDevicesPerAccount} devices here")
        else if book.capacity ≤ book.claims.size then
          match book.firstEmpty vault with
          | none => (book, .error "this host remembers no more devices")
          | some device =>
            ({ book with claims := book.claims.erase device }.enter caller
              (row .unconfirmed now none) now
              inFlight verdict, .ok ())
        else (book.enter caller (row .unconfirmed now none) now inFlight verdict, .ok ())

/-- The account a claim of `caller` names, if it was not withdrawn. -/
def presentedFor (book : ClaimBook) (caller : DeviceId) : Option UserId :=
  ((book.claims[caller]?).filter fun held => held.standing ≠ .withdrawn).map Held.owner

/-- The account `caller` is a device of, if the coordinator confirmed it lately. -/
def confirmedAccount (book : ClaimBook) (caller : DeviceId) (now : ℕ) : Option UserId :=
  ((book.claims[caller]?).filter fun held => Standing.confirmed standingFor now held.standing).map
    Held.owner

def speaksFor (book : ClaimBook) (caller : DeviceId) (owner : UserId) (now : ℕ) : Bool :=
  book.confirmedAccount caller now = some owner

/-! ### What an account may store -/

/-- What one account has here. -/
structure Account where
  pledged : ℕ
  proved : ℕ
  contradicted : Bool

/-- Whether `device` refused this host's chunks for a full pledge lately. -/
def refusedLately (st : Store K) (device : DeviceId) (unix : ℕ) : Bool :=
  (st.peerFullSince device).any fun since => unix - fullRetry ≤ since

/-- What `device` has proved: what it is recorded as holding, unless the audits paused it. -/
def provedBy (st : Store K) (device : DeviceId) : ℕ :=
  if (st.reliability device).paused then 0 else st.bytesHeldBy device

/-- Add one device to what its account has. -/
def addDevice (st : Store K) (unix : ℕ) (a : Account) (r : DeviceId × Held) : Account :=
  let proved := provedBy st r.1
  { contradicted := a.contradicted || (st.reliability r.1).paused
    proved := saturatingAdd a.proved proved
    pledged :=
      saturatingAdd a.pledged
        (if refusedLately st r.1 unix then min r.2.pledged proved else r.2.pledged) }

/-- One account's pledge, proof and contradiction, from its devices here. -/
def standing (book : ClaimBook) (owner : UserId) (st : Store K) (unix : ℕ) : Account :=
  (book.claims.toList.filter fun r => r.2.owner = owner).foldl (addDevice st unix) ⟨0, 0, false⟩

/-- What is held for the accounts of the book beyond what their proof earns. -/
def lentOnPromise (book : ClaimBook) (st : Store K) (vault : Depot K) (unix : ℕ) : ℕ :=
  let owners := (book.claims.toList.map fun r => r.2.owner).dedup.filter fun owner => owner ≠ st.owner
  owners.foldl (fun total owner =>
    saturatingAdd total (vault.heldBytesFor owner - roomEarned (book.standing owner st unix).proved)) 0

/-- The part of its pledge a host lends on promises alone. -/
def unprovenShare (pledge : ℕ) : ℕ := min (pledge * 3 / 10) u64Max

/-- Hold `onPromise` bytes more against the share, with the total recounted when it is old,
and before a refusal unless that was done just now. -/
def lend (book : ClaimBook) (onPromise : ℕ) (st : Store K) (vault : Depot K) (pledge now unix : ℕ) :
    ClaimBook × Except NotAdmitted Unit :=
  let share := unprovenShare pledge
  let stale := book.lent.counted.all fun at' => recountEvery ≤ now - at'
  let past := share < saturatingAdd book.lent.total onPromise
  let recent := book.lent.counted.any fun at' => now - at' < recountOnRefusal
  let lent : Lent :=
    if stale ∨ past ∧ ¬recent then ⟨book.lentOnPromise st vault unix, some now⟩ else book.lent
  if share < saturatingAdd lent.total onPromise then ({ book with lent := lent }, .error .unprovenFull)
  else ({ book with lent := { lent with total := saturatingAdd lent.total onPromise } }, .ok ())

/-- Whether `caller` may store `incoming` more bytes for `owner`. -/
def admits (book : ClaimBook) (caller : DeviceId) (owner : UserId) (incoming : ℕ) (st : Store K)
    (vault : Depot K) (pledge now unix : ℕ) : ClaimBook × Except NotAdmitted Unit :=
  match book.claims[caller]? with
  | none => (book, .error .updateRequired)
  | some held =>
    if held.owner ≠ owner then (book, .error .otherAccount)
    else if owner = st.owner then (book, .ok ())
    else if held.standing = .withdrawn then (book, .error .withdrawn)
    else if ¬Standing.confirmed standingFor now held.standing then (book, .error .unconfirmed)
    else
      let account := book.standing owner st unix
      let earnedByProof := roomEarned account.proved
      let allowance := if account.contradicted then earnedByProof else roomEarned account.pledged
      let mine := vault.heldBytesFor owner
      let after := saturatingAdd mine incoming
      if allowance < after then
        (book, .error (.full account.contradicted mine allowance account.pledged account.proved))
      else
        -- only what goes beyond what proof earns is lent on a promise
        let onPromise := (after - earnedByProof) - (mine - earnedByProof)
        if 0 < onPromise then book.lend onPromise st vault pledge now unix else (book, .ok ())

/-! ### A withdrawal -/

/-- What is done to a book in one process. -/
inductive Op (K : Crypto)
  | take (caller : DeviceId) (bytes : Bytes) (vault : Depot K) (now inFlight : ℕ) (verdict : Verdict)
  | note (device : DeviceId) (verdict : Verdict) (at' : ℕ)
  | admits (caller : DeviceId) (owner : UserId) (incoming : ℕ) (st : Store K) (vault : Depot K)
      (pledge now unix : ℕ)

def Op.apply (C : ClaimCodec) (book : ClaimBook) : Op K → ClaimBook
  | .take caller bytes vault now inFlight verdict =>
      (book.take C caller bytes vault now inFlight verdict).1
  | .note device verdict at' => book.note device verdict at'
  | .admits caller owner incoming st vault pledge now unix =>
    (book.admits caller owner incoming st vault pledge now unix).1

def run (C : ClaimCodec) (book : ClaimBook) (ops : List (Op K)) :
    ClaimBook := ops.foldl (Op.apply C) book

/-- `bytes` is a live claim for `device`, signed by the account it names. -/
def LiveClaim (C : ClaimCodec) (device : DeviceId) (bytes : Bytes) : Prop :=
  ∃ claim signature, C.decode bytes = some (claim, signature) ∧ C.verifyOrigin claim signature = true ∧
    claim.device = device ∧ claim.revoked = false

/-- Every live claim that `device` presents finds its row in the book. -/
def Known (C : ClaimCodec) (device : DeviceId) (book : ClaimBook) : List (Op K) → Prop
  | [] => True
  | op :: ops =>
    (∀ bytes vault now inFlight verdict, op = .take device bytes vault now inFlight verdict →
      LiveClaim C device bytes → (book.claims[device]?).isSome) ∧
    Known C device (op.apply C book) ops

/-- The device is out: if it has a row, that is a withdrawn one of `owner`. -/
def Out (book : ClaimBook) (device : DeviceId) (owner : UserId) : Prop :=
  ∀ held, book.claims[device]? = some held → held.standing = .withdrawn ∧ held.owner = owner

variable {C : ClaimCodec} {book : ClaimBook} {device caller : DeviceId} {owner : UserId}

theorem claims_mayAsk (book : ClaimBook) (now : ℕ) : (book.mayAsk now).1.claims = book.claims := by
  unfold mayAsk
  dsimp only
  split_ifs <;> rfl

theorem claims_note_of_ne (book : ClaimBook) (verdict : Verdict) (at' : ℕ) (hne : caller ≠ device) :
    (book.note caller verdict at').claims[device]? = book.claims[device]? := by
  unfold note
  cases book.claims[caller]? with
  | none => rfl
  | some held => exact Table.getElem?_insert_ne _ _ hne

/-- Nothing lifts a withdrawal from its row. -/
theorem Out.note (h : book.Out device owner) (other : DeviceId) (verdict : Verdict) (at' : ℕ) :
    (book.note other verdict at').Out device owner := by
  intro held hrow
  by_cases heq : other = device
  · subst heq
    unfold ClaimBook.note at hrow
    cases hold : book.claims[other]? with
    | none =>
      simp only [hold] at hrow
      cases hrow
    | some old =>
      obtain ⟨hstanding, howner⟩ := h old hold
      simp only [hold, Table.getElem?_insert_self', hstanding] at hrow
      obtain rfl := Option.some.inj hrow
      exact ⟨rfl, howner⟩
  · rw [claims_note_of_ne book verdict at' heq] at hrow
    exact h held hrow

theorem claims_enter_of_ne (book : ClaimBook) (held : Held) (now inFlight : ℕ) (verdict : Verdict)
    (hne : caller ≠ device) :
    (book.enter caller held now inFlight verdict).claims[device]? = book.claims[device]? := by
  have hins : (book.claims.insert caller held)[device]? = book.claims[device]? :=
    Table.getElem?_insert_ne _ _ hne
  unfold enter
  cases book.asking with
  | none => exact hins
  | some own =>
    dsimp only
    split_ifs
    · rw [claims_note_of_ne _ _ _ hne, claims_mayAsk]
      exact hins
    · rw [claims_mayAsk]
      exact hins
    · exact hins

/-- What taking a claim can do: nothing, take the row of the caller out for a withdrawal, or
enter a live claim, maybe in the place of another row, where no withdrawal stands. -/
theorem take_cases (C : ClaimCodec) (book : ClaimBook) (caller : DeviceId) (bytes : Bytes)
    (vault : Depot K) (now inFlight : ℕ) (verdict : Verdict) :
    (book.take C caller bytes vault now inFlight verdict).1 = book ∨
    (book.take C caller bytes vault now inFlight verdict).1 =
      { book with claims := book.claims.erase caller } ∨
    ∃ b row, (book.take C caller bytes vault now inFlight verdict).1 =
        ClaimBook.enter b caller row now inFlight verdict ∧
      (b = book ∨ ∃ other, b = { book with claims := book.claims.erase other }) ∧
      LiveClaim C caller bytes ∧
      ∀ held, book.claims[caller]? = some held → held.standing ≠ .withdrawn := by
  rw [take]
  cases hdecode : C.decode bytes with
  | none => exact .inl rfl
  | some signed =>
    obtain ⟨claim, signature⟩ := signed
    dsimp only
    by_cases hverify : C.verifyOrigin claim signature = true
    case neg =>
      rw [if_pos (by simpa using hverify)]
      exact .inl rfl
    rw [if_neg (by simpa using hverify)]
    by_cases hdevice : claim.device = caller
    case neg =>
      rw [if_pos hdevice]
      exact .inl rfl
    rw [if_neg (not_not.mpr hdevice)]
    by_cases hrevoked : claim.revoked = true
    · rw [if_pos hrevoked]
      exact .inr (.inl rfl)
    rw [if_neg hrevoked]
    have hlive : LiveClaim C caller bytes :=
      ⟨claim, signature, hdecode, hverify, hdevice, Bool.eq_false_iff.mpr hrevoked⟩
    cases hrow : book.claims[caller]? with
    | some held =>
      dsimp only
      by_cases howner : held.owner ≠ claim.owner
      · rw [if_pos howner]
        exact .inl rfl
      rw [if_neg howner]
      by_cases hout : held.standing = .withdrawn
      · rw [if_pos hout]
        exact .inl rfl
      rw [if_neg hout]
      by_cases hissued : claim.issuedUnix < held.issued
      · rw [if_pos hissued]
        exact .inl rfl
      rw [if_neg hissued]
      refine .inr (.inr ⟨book, _, rfl, .inl rfl, hlive, fun held' hheld => ?_⟩)
      rw [← Option.some.inj hheld]
      exact hout
    | none =>
      have hno : ∀ held, (none : Option Held) = some held → held.standing ≠ .withdrawn :=
        fun _ hheld => by cases hheld
      dsimp only
      by_cases hsiblings : maxDevicesPerAccount ≤ book.claims.toList.countP fun r => r.2.owner =
        claim.owner
      · rw [if_pos hsiblings]
        exact .inl rfl
      rw [if_neg hsiblings]
      by_cases hfull : book.capacity ≤ book.claims.size
      · rw [if_pos hfull]
        cases book.firstEmpty vault with
        | none => exact .inl rfl
        | some other => exact .inr (.inr ⟨_, _, rfl, .inr ⟨other, rfl⟩, hlive, hno⟩)
      · rw [if_neg hfull]
        exact .inr (.inr ⟨book, _, rfl, .inl rfl, hlive, hno⟩)

/-- What is presented does not bring the device back, if its own live claims find its row. -/
theorem Out.take (h : book.Out device owner) (caller : DeviceId) (bytes : Bytes) (vault : Depot K)
    (now inFlight : ℕ) (verdict : Verdict)
    (hknown : caller = device → LiveClaim C device bytes → (book.claims[device]?).isSome) :
    (book.take C caller bytes vault now inFlight verdict).1.Out device owner := by
  have herase : ∀ other,
      ({ book with claims := book.claims.erase other } : ClaimBook).Out device owner := by
    intro other held hrow
    rw [Table.getElem?_erase'] at hrow
    split_ifs at hrow
    exact h held hrow
  obtain hsame | herased | ⟨b, row, henter, hb, hlive, hno⟩ :=
    book.take_cases C caller bytes vault now inFlight verdict
  · rw [hsame]
    exact h
  · rw [herased]
    exact herase caller
  · rw [henter]
    by_cases heq : caller = device
    · subst heq
      obtain ⟨held, hheld⟩ := Option.isSome_iff_exists.mp (hknown rfl hlive)
      exact absurd (h held hheld).1 (hno held hheld)
    · intro held hrow
      rw [claims_enter_of_ne b row now inFlight verdict heq] at hrow
      obtain rfl | ⟨other, rfl⟩ := hb
      · exact h held hrow
      · exact herase other held hrow

theorem claims_admits (book : ClaimBook) (caller : DeviceId) (owner : UserId) (incoming : ℕ)
    (st : Store K) (vault : Depot K) (pledge now unix : ℕ) :
    (book.admits caller owner incoming st vault pledge now unix).1.claims = book.claims := by
  have hlend : ∀ n, (book.lend n st vault pledge now unix).1.claims = book.claims := by
    intro n
    unfold lend
    dsimp only
    split_ifs <;> rfl
  unfold admits
  cases book.claims[caller]? with
  | none => rfl
  | some held =>
    dsimp only
    split_ifs <;> first | rfl | exact hlend _

theorem Out.apply (h : book.Out device owner) (op : Op K)
    (hknown : ∀ bytes vault now inFlight verdict, op = .take device bytes vault now inFlight verdict →
      LiveClaim C device bytes → (book.claims[device]?).isSome) :
      (op.apply C book).Out device owner := by
  cases op with
  | take caller bytes vault now inFlight verdict =>
    refine h.take caller bytes vault now inFlight verdict fun heq hlive => ?_
    subst heq
    exact hknown _ _ _ _ _ rfl hlive
  | note other verdict at' => exact h.note other verdict at'
  | admits caller owner' incoming st vault pledge now unix =>
    intro held hrow
    rw [Op.apply, claims_admits] at hrow
    exact h held hrow

theorem Out.run (h : book.Out device owner) (ops : List (Op K)) (hknown : Known C device book ops) :
    (book.run C ops).Out device owner := by
  induction ops generalizing book with
  | nil => exact h
  | cons op ops ih => exact ih (h.apply op hknown.1) hknown.2

/-- The coordinator's word puts a device out. -/
theorem note_withdrawn {held : Held} (hrow : book.claims[device]? = some held) (at' : ℕ) :
    (book.note device .withdrawn at').Out device held.owner := by
  intro row hrow'
  unfold note at hrow'
  simp only [hrow, Table.getElem?_insert_self'] at hrow'
  obtain rfl := Option.some.inj hrow'
  cases held.standing <;> exact ⟨rfl, rfl⟩

/-- A device that is out is nobody's. -/
theorem Out.nobody (h : book.Out device owner) :
    book.presentedFor device = none ∧ ∀ now, book.confirmedAccount device now = none := by
  cases hrow : book.claims[device]? with
  | none =>
    rw [presentedFor, hrow]
    refine ⟨rfl, fun now => ?_⟩
    rw [confirmedAccount, hrow]
    rfl
  | some held =>
    obtain ⟨hstanding, -⟩ := h held hrow
    rw [presentedFor, hrow]
    refine ⟨by simp [Option.filter, hstanding], fun now => ?_⟩
    rw [confirmedAccount, hrow]
    simp [Option.filter, hstanding, Standing.confirmed]

/-- A device that is out stores nothing, unless it is one of the host's own account. -/
theorem Out.not_admitted (h : book.Out device owner) (owner' : UserId) (incoming : ℕ) (st : Store K)
    (vault : Depot K) (pledge now unix : ℕ) (hother : owner ≠ st.owner) :
    ∃ why, (book.admits device owner' incoming st vault pledge now unix).2 = .error why := by
  rw [admits]
  cases hrow : book.claims[device]? with
  | none => exact ⟨_, rfl⟩
  | some held =>
    obtain ⟨hstanding, howner⟩ := h held hrow
    dsimp only
    by_cases hsame : held.owner ≠ owner'
    · rw [if_pos hsame]
      exact ⟨_, rfl⟩
    · rw [not_not, howner] at hsame
      rw [if_neg (by rw [howner, hsame]; exact not_not.mpr rfl), if_neg (hsame ▸ hother),
        if_pos hstanding]
      exact ⟨_, rfl⟩

/-- **A withdrawal is final**, for a device whose live claims all find its row: whatever is
presented, answered and asked after the coordinator's word, nobody has the device, and it
stores nothing for another account. -/
theorem withdrawal_final {held : Held} (hrow : book.claims[device]? = some held) (at' : ℕ)
    (ops : List (Op K)) (hknown : Known C device (book.note device .withdrawn at') ops) :
    let after := (book.note device .withdrawn at').run C ops
    after.presentedFor device = none ∧ (∀ now, after.confirmedAccount device now = none) ∧
      (∀ owner now, after.speaksFor device owner now = false) ∧
      ∀ owner incoming (st : Store K) vault pledge now unix, held.owner ≠ st.owner →
        ∃ why, (after.admits device owner incoming st vault pledge now unix).2 = .error why := by
  intro after
  have hout : after.Out device held.owner := (note_withdrawn hrow at').run ops hknown
  obtain ⟨hpresented, hconfirmed⟩ := hout.nobody
  refine ⟨hpresented, hconfirmed, fun owner now =>
    ?_, fun owner incoming st vault pledge now unix hother => ?_⟩
  · rw [speaksFor, hconfirmed]
    rfl
  · exact hout.not_admitted owner incoming st vault pledge now unix hother

/-- A device of account 7 with a live claim, `[0]`, and its withdrawal, `[1]`. -/
def twoClaims : ClaimCodec where
  Signature := Unit
  decode bytes :=
    if bytes = [0] then some (⟨7, 5, 1000, 1, false⟩, ())
    else if bytes = [1] then some (⟨7, 5, 1000, 2, true⟩, ())
    else none
  verifyOrigin _ _ := true

/-- A book in which the device has presented its live claim. -/
def presented : ClaimBook :=
  ((withCapacity maxClaims none).take twoClaims 5 [0] (Depot.new : Depot symbolic) 0 0 .noAnswer).1

theorem withdrawal_final_presented :
    let after := (presented.note 5 .withdrawn 1).run twoClaims
      ([.note 5 .live 2, .take 5 [0] .new 3 0 .live, .take 5 [1] .new 4 0 .live] : List (Op symbolic))
    after.presentedFor 5 = none ∧ (∀ now, after.confirmedAccount 5 now = none) ∧
      (∀ owner now, after.speaksFor 5 owner now = false) ∧
      ∀ owner incoming (st : Store symbolic) vault pledge now unix, 7 ≠ st.owner →
        ∃ why, (after.admits 5 owner incoming st vault pledge now unix).2 = .error why := by
  have hrow : presented.claims[(5 : DeviceId)]? = some ⟨7, 1000, 1, [0], .unconfirmed, 0, none⟩ := by
    decide +kernel
  refine withdrawal_final hrow 1 _ ⟨?_, ?_, ?_, trivial⟩
  · intro _ _ _ _ _ hop
    cases hop
  · intro _ _ _ _ _ _ _
    decide +kernel
  · intro bytes _ _ _ _ hop hlive
    obtain ⟨rfl, -⟩ := Op.take.inj hop |>.2
    obtain ⟨claim, signature, hdecode, -, -, hrevoked⟩ := hlive
    have hclaim : claim = ⟨7, 5, 1000, 2, true⟩ := by
      have hd : twoClaims.decode [1] = some (⟨7, 5, 1000, 2, true⟩, ()) := rfl
      rw [hd] at hdecode
      exact (congrArg Prod.fst (Option.some.inj hdecode)).symm
    rw [hclaim] at hrevoked
    cases hrevoked

/-- The device presents its withdrawal, which takes the row out, and then its live claim
again. -/
theorem withdrawn_device_is_back :
    let after := (presented.note 5 .withdrawn 1).run twoClaims
      ([.take 5 [1] .new 2 0 .noAnswer, .take 5 [0] .new 3 0 .noAnswer] : List (Op symbolic))
    (presented.note 5 .withdrawn 1).presentedFor 5 = none ∧ after.presentedFor 5 = some 7 := by
  decide +kernel

end ClaimBook

end Itsanas
