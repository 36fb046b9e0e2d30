/-
# What a device has proved

A host credits an account for what the devices of the account are recorded as holding of
the host's own data (`Store.bytesHeldBy`): as many records as the ledger has, times the
mean size of a chunk. So credit is earned by whatever writes records. The host writes one
after a device accepted a chunk or answered for it. One request writes them too: `hosted`
records every chunk it names, whether or not the caller has it, and whether or not there
is such a chunk (`Host.hosted_earns_room`). No other request does, in any order and
whatever the host does meanwhile (`Host.proof_not_earned_by_talking`); then every byte
stored for the account is lent on a promise.
-/
import Itsanas.Service

namespace Itsanas

variable {K : Crypto}

/-! ### Records -/

variable {device : DeviceId}

namespace Ledger

/-- Nothing is recorded of `device`. -/
def Unrecorded (l : Ledger) (device : DeviceId) : Prop := ∀ chunk, l.holders[key chunk device]? = none

variable {tag : ChunkId → AuditTag} {l : Ledger} {d : DeviceId}

theorem Unrecorded.putRecord (h : l.Unrecorded d) (hne : device ≠ d) (now : ℕ)
    (chunk : ChunkId) : (l.putRecord tag device now chunk).Unrecorded d := by
  intro c
  have hkey : key chunk device ≠ key c d := fun he => hne (key_inj.mp he).2
  exact (Table.getElem?_insert_ne _ _ hkey).trans (h c)

theorem Unrecorded.eraseRecord (h : l.Unrecorded d) (chunk : ChunkId) (device : DeviceId) :
    (l.eraseRecord tag chunk device).Unrecorded d := by
  intro c
  show (l.holders.erase (key chunk device))[key c d]? = none
  rw [Table.getElem?_erase', h c, ite_self]

theorem Unrecorded.dropRecord (h : l.Unrecorded d) (chunk : ChunkId) (device : DeviceId) :
    (l.dropRecord tag chunk device).Unrecorded d := by
  have herased : (l.eraseRecord tag chunk device).Unrecorded d := h.eraseRecord chunk device
  exact herased

theorem Unrecorded.recordDue (h : l.Unrecorded d) (due : List ChunkId)
    (hne : device ≠ d) (now : ℕ) : (l.recordDue tag due device now).Unrecorded d := by
  unfold Ledger.recordDue
  split_ifs
  · exact h
  · refine List.foldlRecOn (motive := fun l => Unrecorded l d) due _ (fun c => h c) ?_
    exact fun l hl chunk _ => hl.putRecord hne now chunk

theorem Unrecorded.forgetHoldersOf (h : l.Unrecorded d) (chunk : ChunkId) :
    (l.forgetHoldersOf tag chunk).Unrecorded d :=
  List.foldlRecOn (motive := fun l => Unrecorded l d) (l.holdersOf chunk) _ h
    fun _ hl r _ => hl.dropRecord chunk r.1

theorem Unrecorded.forgetDevice (h : l.Unrecorded d) (device : DeviceId) :
    (l.forgetDevice tag device).Unrecorded d :=
  List.foldlRecOn (motive := fun l => Unrecorded l d) (l.holdingsOf device) _ (fun c => h c)
    fun _ hl chunk _ => hl.eraseRecord chunk device

theorem Unrecorded.reopen (h : l.Unrecorded d) : (l.reopen tag).Unrecorded d := by
  have hrebuilt : (l.rebuildHoldingsIfStale tag).holders = l.holders := by
    unfold rebuildHoldingsIfStale
    split_ifs <;> rfl
  have hcounted : (l.reopen tag).holders = (l.rebuildHoldingsIfStale tag).holders := by
    unfold Ledger.reopen buildHolderCountsIfMissing
    split_ifs <;> rfl
  intro c
  rw [hcounted, hrebuilt]
  exact h c

/-- A device with no record counts for nothing. -/
theorem OneRelation.heldBy_eq_zero (h : OneRelation tag l) (hd : l.Unrecorded d) : l.heldBy d = 0 := by
  rw [h.counts d]
  refine Table.tally_eq_zero fun k hk => ?_
  have hkey : k = key (ofLex k).1 d := by
    rw [← of_decide_eq_true hk]
    rfl
  rw [hkey]
  exact hd _

end Ledger

namespace Index

/-- The device an operation writes records of, if it writes any. -/
def LedgerOp.recordsFor : LedgerOp → Option DeviceId
  | .recordHolders _ device _ | .recordStored _ device _ => some device
  | _ => none

variable {ix : Index K} {d : DeviceId}

theorem Unrecorded.apply (h : ix.ledger.Unrecorded d) {op : LedgerOp} (hop : op.recordsFor ≠ some d) :
    (op.apply ix).ledger.Unrecorded d := by
  cases op with
  | recordHolders chunks device now =>
    have hne : device ≠ d := fun he => hop (congrArg some he)
    show (ix.ledger.recordHolders K.auditTag chunks device now).Unrecorded d
    unfold Ledger.recordHolders
    split_ifs
    · exact h
    · exact h.recordDue _ hne now
  | recordStored chunks device now =>
    have hne : device ≠ d := fun he => hop (congrArg some he)
    show (ix.ledger.recordStored K.auditTag chunks device now).Unrecorded d
    unfold Ledger.recordStored
    split_ifs
    · exact h
    · have hcleared : (ix.ledger.clearReleased chunks device).Unrecorded d := fun c => h c
      exact hcleared.recordDue _ hne now
  | forgetHolder chunk device now => exact h.dropRecord chunk device
  | forgetHolders chunks device now =>
    show (chunks.foldl (fun ix chunk => ix.forgetHolder chunk device now) ix).ledger.Unrecorded d
    exact List.foldlRecOn (motive := fun ix : Index K => ix.ledger.Unrecorded d) chunks _ h
      fun _ hl chunk _ => hl.dropRecord chunk device
  | forgetDevice device now => exact h.forgetDevice device
  | forgetChunk chunk => exact fun c => h.forgetHoldersOf chunk c
  | releaseChunk chunk => exact fun c => h c
  | noteAudit device passed now =>
    show (ix.noteAudit device passed now).1.ledger.Unrecorded d
    unfold Index.noteAudit
    dsimp only
    split_ifs <;> exact fun c => h c
  | noteSeen device now marks =>
    show (ix.noteSeen device now marks).ledger.Unrecorded d
    unfold Index.noteSeen
    split_ifs <;> exact fun c => h c
  | noteDraining device ends now =>
    show (ix.noteDraining device ends now).1.ledger.Unrecorded d
    unfold Index.noteDraining
    dsimp only
    split_ifs <;> exact fun c => h c
  | files tree => exact h
  | reopen => exact h.reopen

end Index

/-! ### Accounts -/

theorem saturatingAdd_le (a b : ℕ) : saturatingAdd a b ≤ u64Max := min_le_right _ _

/-- No pledge earns what would saturate. -/
theorem roomEarned_lt {pledged : ℕ} (h : pledged ≤ u64Max) : roomEarned pledged < u64Max := by
  have hpos : 0 < u64Max := by decide
  have hle : roomEarned pledged ≤ pledged * 30 / 70 := min_le_left _ _
  have hdiv : pledged * 30 / 70 ≤ u64Max * 30 / 70 := Nat.div_le_div_right (Nat.mul_le_mul_right 30 h)
  have hlt : u64Max * 30 / 70 < u64Max := Nat.div_lt_of_lt_mul (by omega)
  omega

namespace ClaimBook

/-- What an account has fits a `u64`. -/
theorem standing_le (book : ClaimBook) (owner : UserId) (st : Store K) (unix : ℕ) :
    (book.standing owner st unix).pledged ≤ u64Max ∧ (book.standing owner st unix).proved ≤
      u64Max := by
  refine List.foldlRecOn (motive := fun a : Account => a.pledged ≤ u64Max ∧ a.proved ≤ u64Max) _ _
    ⟨Nat.zero_le _, Nat.zero_le _⟩ ?_
  exact fun a _ r _ => ⟨saturatingAdd_le _ _, saturatingAdd_le _ _⟩

/-- An account whose devices proved nothing has proved nothing. -/
theorem proved_eq_zero {book : ClaimBook} {owner : UserId} {st : Store K}
    (h : ∀ device held, book.claims[device]? = some held → held.owner = owner → provedBy st device = 0)
    (unix : ℕ) : (book.standing owner st unix).proved = 0 := by
  refine List.foldlRecOn (motive := fun a : Account => a.proved = 0) _ _ rfl fun a ha r hr => ?_
  rw [List.mem_filter, Table.mem_toList] at hr
  have hr0 := h r.1 r.2 hr.1 (of_decide_eq_true hr.2)
  show saturatingAdd a.proved (provedBy st r.1) = 0
  rw [ha, hr0]
  rfl

/-- What an admitted store of another account was held against: its bytes are within what
the account may store, and those beyond what its proof earns were lent on a promise. -/
theorem admits_ok {book : ClaimBook} {caller : DeviceId} {owner : UserId} {incoming : ℕ}
    {st : Store K} {vault : Depot K} {pledge now unix : ℕ} (hother : owner ≠ st.owner)
    (hok : (book.admits caller owner incoming st vault pledge now unix).2 = .ok ()) :
    let earned := roomEarned (book.standing owner st unix).proved
    let mine := vault.heldBytesFor owner
    let onPromise := (mine + incoming - earned) - (mine - earned)
    mine + incoming < u64Max ∧ (∃ held, book.claims[caller]? = some held ∧ held.owner = owner) ∧
      book.admits caller owner incoming st vault pledge now unix =
        if 0 < onPromise then book.lend onPromise st vault pledge now unix else (book, .ok ()) := by
  intro earned mine onPromise
  obtain ⟨hpledged, hproved⟩ := book.standing_le owner st unix
  have hearned := roomEarned_lt hproved
  have hpledge := roomEarned_lt hpledged
  rw [admits] at hok ⊢
  cases hrow : book.claims[caller]? with
  | none =>
    rw [hrow] at hok
    cases hok
  | some held =>
    rw [hrow] at hok
    dsimp only at hok ⊢
    by_cases howner : held.owner = owner
    case neg =>
      rw [if_pos howner] at hok
      cases hok
    rw [if_neg (not_not.mpr howner), if_neg hother] at hok ⊢
    by_cases hout : held.standing = .withdrawn
    · rw [if_pos hout] at hok
      cases hok
    rw [if_neg hout] at hok ⊢
    by_cases hconfirmed : ¬Standing.confirmed standingFor now held.standing = true
    · rw [if_pos hconfirmed] at hok
      cases hok
    rw [if_neg hconfirmed] at hok ⊢
    have hallowance : (if (book.standing owner st unix).contradicted = true
        then roomEarned (book.standing owner st unix).proved
        else roomEarned (book.standing owner st unix).pledged) < u64Max := by
      split_ifs
      · exact hearned
      · exact hpledge
    generalize (if (book.standing owner st unix).contradicted = true
        then roomEarned (book.standing owner st unix).proved
        else roomEarned (book.standing owner st unix).pledged) = allowance at hallowance hok ⊢
    by_cases hfull : allowance < saturatingAdd (vault.heldBytesFor owner) incoming
    · rw [if_pos hfull] at hok
      cases hok
    rw [if_neg hfull]
    have hlt : mine + incoming < u64Max := by
      rw [saturatingAdd] at hfull
      omega
    have hsum : saturatingAdd (vault.heldBytesFor owner) incoming = mine + incoming :=
      min_eq_left hlt.le
    rw [hsum]
    exact ⟨hlt, ⟨held, rfl, howner⟩, rfl⟩

end ClaimBook

/-! ### Talking -/

namespace Host

variable [SealedLength K] (C : ClaimCodec) (H : PeerHashes)

/-- What happens on a host: a request, something the node does to its index by itself, an
answer of the coordinator, or a restart, which empties the book. -/
inductive Turn (K : Crypto)
  | request (request : Request K) (caller : DeviceId) (m : Moment)
  | own (op : Index.LedgerOp)
  | note (device : DeviceId) (verdict : Verdict) (at' : ℕ)
  | restart

def after (h : Host K) : Turn K → Host K
  | .request request caller m => (h.handle C H request caller m).1
  | .own op => { h with store := h.store.withIndex (op.apply h.store.index) }
  | .note device verdict at' => { h with book := h.book.note device verdict at' }
  | .restart =>
    { h with
      store := h.store.reopen
      book := .withCapacity h.book.capacity h.book.asking }

def run (h : Host K) (turns : List (Turn K)) : Host K := turns.foldl (after C H) h

/-- No device of `S` says that it stored something, and the host writes no record of one:
none accepted a chunk or answered for one. -/
def Turn.Silent (S : Set DeviceId) : Turn K → Prop
  | .request (.hosted _) caller _ => caller ∉ S
  | .own op => ∀ device ∈ S, op.recordsFor ≠ some device
  | _ => True

/-- The devices of `S` are in no record. -/
structure Unproven (S : Set DeviceId) (h : Host K) : Prop where
  relation : h.store.index.OneRelation
  unrecorded : ∀ device ∈ S, h.store.index.ledger.Unrecorded device

variable {C H} {S : Set DeviceId} {h : Host K}

omit [SealedLength K] in
theorem Unproven.of_index (hu : h.Unproven S) {h' : Host K}
    (hix : h'.store.index.ledger = h.store.index.ledger) : h'.Unproven S :=
  ⟨hu.relation.congr (congrArg Ledger.holders hix) (congrArg Ledger.holdings hix)
    (congrArg Ledger.holderCounts hix), fun device hd => hix ▸ hu.unrecorded device hd⟩

omit [SealedLength K] in
theorem Unproven.apply (hu : h.Unproven S) (op : Index.LedgerOp)
    (hop : ∀ device ∈ S, op.recordsFor ≠ some device) :
    ({ h with store := h.store.withIndex (op.apply h.store.index) } : Host K).Unproven S :=
  ⟨hu.relation.apply op, fun device hd =>
    Index.Unrecorded.apply (hu.unrecorded device hd) (hop device hd)⟩

omit [SealedLength K] in
/-- Storing a chunk does not touch the own store. -/
theorem store_storeChunk (h : Host K) (caller : DeviceId) (owner : UserId) (address : ChunkId)
    (sealed : Bytes) (m : Moment) : (h.storeChunk caller owner address sealed m).1.store = h.store :=
  storeChunk_rule (P := fun h' => h'.store = h.store) (R := fun h' => h'.store = h.store) (fun _ => id)
    (fun _ => id) (fun _ _ => id) (fun _ hs _ => hs) rfl fun _ => rfl

theorem store_storeSegment (h : Host K) (caller : DeviceId) (envelope : SegmentEnvelope K)
    (m : Moment) :
    (h.storeSegment caller envelope m).1.store = h.store :=
  storeSegment_rule (P := fun h' => h'.store = h.store) (R := fun h' => h'.store = h.store)
    (fun _ => id)
    (fun _ => id) (fun _ hs _ => hs) rfl fun _ => rfl

omit [SealedLength K] in
/-- A claim may add the caller to the roster, and touches nothing else of the index. -/
theorem ledger_claim (h : Host K) (caller : DeviceId) (bytes : Bytes) (m : Moment) :
    (h.claim C caller bytes m).1.store.index.ledger = h.store.index.ledger := by
  obtain ⟨kept, store, hstore, heq⟩ := h.claim_cases C caller bytes m
  rw [heq]
  obtain rfl | rfl := hstore
  · rfl
  · show (h.store.index.admitMember caller false).ledger = _
    unfold Index.admitMember
    split_ifs <;> rfl

theorem Unproven.after (hu : h.Unproven S) {t : Turn K} (ht : t.Silent S) :
    (h.after C H t).Unproven S := by
  cases t with
  | own op => exact hu.apply op ht
  | note device verdict at' => exact hu.of_index rfl
  | restart => exact (hu.apply .reopen fun _ _ he => by cases he).of_index rfl
  | request request caller m =>
    show (h.handle C H request caller m).1.Unproven S
    have hhandled := h.handled C H request caller m
    generalize (h.handle C H request caller m).1 = h' at hhandled
    have hnone : ∀ {op : Index.LedgerOp}, op.recordsFor = none →
        ∀ device ∈ S, op.recordsFor ≠ some device :=
      fun hop device _ he => by rw [hop] at he; cases he
    cases hhandled with
    | same => exact hu
    | storeChunk owner address sealed =>
      exact hu.of_index (by rw [store_storeChunk])
    | storeSegment envelope => exact hu.of_index (by rw [store_storeSegment])
    | mayEvict owner chunks => exact hu.of_index rfl
    | hosted chunks =>
      refine hu.apply (.recordHolders chunks caller m.unix) fun device hd he => ?_
      rw [← Option.some.inj he] at hd
      exact ht hd
    | dropped chunks => exact hu.apply (.forgetHolders chunks caller m.unix) (hnone rfl)
    | leaving => exact hu.apply (.forgetDevice caller m.unix) (hnone rfl)
    | draining seconds =>
      exact hu.apply (.noteDraining caller (saturatingAdd m.unix seconds) m.unix) (hnone rfl)
    | claim bytes => exact hu.of_index (ledger_claim h caller bytes m)

omit [SealedLength K] in
/-- The devices of `S` proved nothing. -/
theorem Unproven.provedBy (hu : h.Unproven S) (hd : device ∈ S) :
    ClaimBook.provedBy h.store device = 0 := by
  have hzero : h.store.index.ledger.heldBy device = 0 :=
    hu.relation.heldBy_eq_zero (hu.unrecorded device hd)
  unfold ClaimBook.provedBy Store.bytesHeldBy
  rw [hzero]
  exact ite_self _

/-- **Proof is not earned by talking**, as long as no device of the account says it stored
something: whatever its devices send, if none of them accepted a chunk or answered for one,
the account has no room for what it proved, and every byte it is let store is lent on a
promise. -/
theorem proof_not_earned_by_talking (hnew : h.store.index.ledger = .new) (turns : List (Turn K))
    (hsilent : ∀ t ∈ turns, t.Silent S) (owner : UserId)
    (hdevices : ∀ device held, (h.run C H turns).book.claims[device]? = some held →
      held.owner = owner →
      device ∈ S) :
    let h' := h.run C H turns
    (∀ unix, roomEarned (h'.book.standing owner h'.store unix).proved = 0) ∧
      ∀ caller incoming m, owner ≠ h'.store.owner → 0 < incoming →
        (h'.admits caller owner incoming m).2 = .ok () →
        (h'.admits caller owner incoming m).1.book =
          (h'.book.lend incoming h'.store h'.vault h'.pledge.bytes m.now m.unix).1 := by
  intro h'
  have hstart : h.Unproven S := by
    refine ⟨?_, fun device _ chunk => ?_⟩
    · show h.store.index.ledger.OneRelation K.auditTag
      rw [hnew]
      exact Ledger.new_oneRelation
    · rw [hnew]
      exact Std.ExtTreeMap.getElem?_empty
  have hrun : h'.Unproven S :=
    List.foldlRecOn (motive := Unproven S) turns _ hstart fun _ hu t ht => hu.after (hsilent t ht)
  have hproved : ∀ unix, roomEarned (h'.book.standing owner h'.store unix).proved = 0 := by
    intro unix
    rw [ClaimBook.proved_eq_zero fun device held hrow howner =>
      hrun.provedBy (hdevices device held hrow howner)]
    rfl
  refine ⟨hproved, fun caller incoming m hother hpos hok => ?_⟩
  obtain ⟨-, -, heq⟩ := ClaimBook.admits_ok hother hok
  rw [hproved, Nat.sub_zero, Nat.sub_zero, Nat.add_sub_cancel_left, if_pos hpos] at heq
  exact congrArg Prod.fst heq

/-- Device 1 of account 2, with one file of four bytes. -/
def talkedTo : Host symbolic :=
  fresh ((Store.new 1 2 fourBytes).writeStream "a".toList [.data [1, 2, 3, 4]] 0).1

/-- Device 5 presents its claim, withdraws and drains, and device 9 accepts a chunk. -/
def talk : List (Turn symbolic) :=
  [.request (.claim [0]) 5 moment, .note 5 .live 0, .request (.dropped 2 [3]) 5 moment,
    .own (.recordStored [4] 9 0), .request (.draining 60) 5 moment,
      .request (.storeChunk 7 8 [1]) 5 moment]

theorem proof_not_earned_by_talk :
    let h' := talkedTo.run ClaimBook.twoClaims noHashes talk
    (∀ unix, roomEarned (h'.book.standing 7 h'.store unix).proved = 0) ∧
      ∀ caller incoming m, 7 ≠ h'.store.owner → 0 < incoming →
        (h'.admits caller 7 incoming m).2 = .ok () →
        (h'.admits caller 7 incoming m).1.book =
          (h'.book.lend incoming h'.store h'.vault h'.pledge.bytes m.now m.unix).1 := by
  have hbook : (talkedTo.run ClaimBook.twoClaims noHashes talk).book.claims.toList.map Prod.fst =
      [5] := by
    decide +kernel
  refine proof_not_earned_by_talking (S := {5}) rfl talk ?_ 7 fun device held hrow _ => ?_
  · intro t ht
    simp only [talk, List.mem_cons, List.not_mem_nil, or_false] at ht
    obtain rfl | rfl | rfl | rfl | rfl | rfl := ht
    case inr.inr.inr.inl =>
      intro device hd he
      rw [Set.mem_singleton_iff.mp hd] at he
      exact absurd he (by decide)
    all_goals trivial
  · have hrow' : (device, held) ∈
      (talkedTo.run ClaimBook.twoClaims noHashes talk).book.claims.toList :=
      Table.mem_toList.mpr hrow
    have hmem := List.mem_map_of_mem (f := Prod.fst) hrow'
    rw [hbook] at hmem
    exact List.mem_singleton.mp hmem

/-- Device 5 presents its claim and says it stored three chunks that do not exist. -/
theorem hosted_earns_room :
    let h' := talkedTo.run ClaimBook.twoClaims noHashes
      [.request (.claim [0]) 5 moment, .request (.hosted [1, 2, 3]) 5 moment]
    talkedTo.store.index.ledger.holderCounts.size = 0 ∧
      roomEarned (h'.book.standing 7 h'.store 0).proved = 5 := by
  decide +kernel

end Host

end Itsanas
