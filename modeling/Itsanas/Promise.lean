/-
# What is lent on promises

A host lets an account store what its pledge earns, before the account has proved that it
keeps the pledge. What the accounts together hold beyond what their proof earns
(`Host.promised`) is lent on promises, and is meant to stay within a share of the host's own
pledge. The host keeps a running total, recounted from the accounts in its book.

The book is in memory. After a restart it does not have the accounts whose bytes are in the
vault, a recount passes over them, and the share is lent once more (`Host.restart_lends_twice`).
A segment is held against the share by its body and charged by its encoding. Where every
account that holds something on a promise is in the book when a chunk is stored, and segments
are stored on proof only, the share is a cap (`Host.promises_are_capped`).
-/
import Itsanas.Credit

namespace Itsanas

variable {K : Crypto}

theorem roomEarned_mono {a b : ℕ} (h : a ≤ b) : roomEarned a ≤ roomEarned b :=
  min_le_min_right _ (Nat.div_le_div_right (Nat.mul_le_mul_right 30 h))

namespace ClaimBook

theorem unprovenShare_lt {pledge : ℕ} (h : pledge ≤ u64Max) : unprovenShare pledge < u64Max := by
  have hpos : 0 < u64Max := by decide
  have hle : unprovenShare pledge ≤ pledge * 3 / 10 := min_le_left _ _
  have hdiv : pledge * 3 / 10 ≤ u64Max * 3 / 10 := Nat.div_le_div_right (Nat.mul_le_mul_right 3 h)
  have hlt : u64Max * 3 / 10 < u64Max := Nat.div_lt_of_lt_mul (by omega)
  omega

/-! ### The running total -/

/-- The total, as long as it is not below what is lent, is not below it after a store was
held against it, and what is admitted is counted. -/
theorem lend_spec (book : ClaimBook) (st : Store K) (vault : Depot K) {pledge : ℕ}
    (hpledge : pledge ≤ u64Max) {promised unix : ℕ} (onPromise now : ℕ)
    (hcounted : book.lent.counted.isSome → promised ≤ book.lent.total)
    (hrecount : promised ≤ book.lentOnPromise st vault unix) :
    promised ≤ (book.lend onPromise st vault pledge now unix).1.lent.total ∧
      ((book.lend onPromise st vault pledge now unix).2 = .ok () →
        promised + onPromise ≤ unprovenShare pledge ∧
          promised + onPromise ≤ (book.lend onPromise st vault pledge now unix).1.lent.total) := by
  have hshare := unprovenShare_lt hpledge
  -- with any total that is not below what is lent
  have hheld : ∀ lent : Lent, promised ≤ lent.total →
      let r : ClaimBook × Except NotAdmitted Unit :=
        if unprovenShare pledge < saturatingAdd lent.total onPromise then
          ({ book with lent := lent }, .error .unprovenFull)
        else ({ book with lent := { lent with total := saturatingAdd lent.total onPromise } }, .ok ())
      promised ≤ r.1.lent.total ∧ (r.2 = .ok () →
        promised + onPromise ≤ unprovenShare pledge ∧ promised + onPromise ≤ r.1.lent.total) := by
    intro lent htotal
    by_cases hpast : unprovenShare pledge < saturatingAdd lent.total onPromise
    · rw [if_pos hpast]
      exact ⟨htotal, fun hok => by cases hok⟩
    · rw [if_neg hpast]
      have hsum : saturatingAdd lent.total onPromise = lent.total + onPromise := by
        rw [saturatingAdd] at hpast ⊢
        omega
      rw [hsum] at hpast ⊢
      dsimp only
      exact ⟨by omega, fun _ => ⟨by omega, by omega⟩⟩
  refine hheld _ ?_
  split_ifs with hold
  · exact hrecount
  · refine hcounted ?_
    cases hnone : book.lent.counted with
    | some at' => rfl
    | none =>
      rw [hnone] at hold
      exact absurd (.inl rfl) hold

/-- What may happen to the book when a store is asked for: nothing, or what goes beyond proof
is held against the share. -/
theorem admits_book (book : ClaimBook) (caller : DeviceId) (owner : UserId) (incoming : ℕ)
    (st : Store K) (vault : Depot K) (pledge now unix : ℕ) :
    (book.admits caller owner incoming st vault pledge now unix).1 = book ∨
      owner ≠ st.owner ∧ 0 < (saturatingAdd (vault.heldBytesFor owner) incoming -
          roomEarned (book.standing owner st unix).proved) -
        (vault.heldBytesFor owner - roomEarned (book.standing owner st unix).proved) ∧
      ∃ onPromise, book.admits caller owner incoming st vault pledge now unix =
        book.lend onPromise st vault pledge now unix := by
  unfold admits
  cases book.claims[caller]? with
  | none => exact .inl rfl
  | some held =>
    dsimp only
    split_ifs with h1 h2 h3 h4 h5 h6 h7
    all_goals first | exact .inl rfl | exact .inr ⟨h2, by assumption, _, rfl⟩

theorem lent_note (book : ClaimBook) (device : DeviceId) (verdict : Verdict) (at' : ℕ) :
    (book.note device verdict at').lent = book.lent := by
  unfold note
  cases book.claims[device]? <;> rfl

theorem lent_enter (book : ClaimBook) (caller : DeviceId) (held : Held) (now inFlight : ℕ)
    (verdict : Verdict) : (book.enter caller held now inFlight verdict).lent = book.lent := by
  have hask : ∀ book : ClaimBook, (book.mayAsk now).1.lent = book.lent := by
    intro book
    unfold mayAsk
    dsimp only
    split_ifs <;> rfl
  unfold enter
  cases book.asking with
  | none => rfl
  | some own =>
    dsimp only
    split_ifs
    · rw [lent_note, hask]
    · rw [hask]
    · rfl

theorem lent_take (C : ClaimCodec) (book : ClaimBook) (caller : DeviceId) (bytes : Bytes)
    (vault : Depot K) (now inFlight : ℕ) (verdict : Verdict) :
    (book.take C caller bytes vault now inFlight verdict).1.lent = book.lent := by
  obtain heq | heq | ⟨b, row, heq, hb, -⟩ := take_cases C book caller bytes vault now inFlight verdict
  · rw [heq]
  · rw [heq]
  · rw [heq, lent_enter]
    obtain rfl | ⟨other, rfl⟩ := hb <;> rfl

end ClaimBook

/-! ### What is lent -/

namespace Host

variable {h h' : Host K} {proof proof' : UserId → ℕ}

/-- What is held for other accounts beyond what they earn by their proof. -/
def promised (h : Host K) (proof : UserId → ℕ) : ℕ :=
  ∑ owner : UserId, if owner = h.store.owner then 0 else h.vault.heldBytesFor owner - roomEarned
    (proof owner)

/-- Every account has proved at least what its devices in the book have. -/
def Proves (h : Host K) (proof : UserId → ℕ) : Prop :=
  ∀ owner unix, (h.book.standing owner h.store unix).proved ≤ proof owner

/-- Every other account that holds more than it earned has a device in the book. -/
def Booked (h : Host K) (proof : UserId → ℕ) : Prop :=
  ∀ owner, owner ≠ h.store.owner → roomEarned (proof owner) < h.vault.heldBytesFor owner →
    ∃ (device : DeviceId) (held : Held), h.book.claims[device]? = some held ∧ held.owner = owner

/-- No more than the share is lent, and the running total, once counted, is not below what
is lent. -/
structure Lends (h : Host K) (proof : UserId → ℕ) : Prop where
  vault : h.vault.Ok
  capped : h.promised proof ≤ ClaimBook.unprovenShare h.pledge.bytes
  counted : h.book.lent.counted.isSome → h.promised proof ≤ h.book.lent.total

theorem promised_le (howner : h'.store.owner = h.store.owner)
    (hheld : ∀ owner, h'.vault.heldBytesFor owner ≤ h.vault.heldBytesFor owner)
    (hproof : ∀ owner, proof owner ≤ proof' owner) : h'.promised proof' ≤ h.promised proof := by
  refine Finset.sum_le_sum fun owner _ => ?_
  rw [howner]
  split_ifs
  · exact le_rfl
  · exact tsub_le_tsub (hheld owner) (roomEarned_mono (hproof owner))

/-- What is lent more when an account gets `charged` bytes more. -/
def lentMore (h : Host K) (proof : UserId → ℕ) (owner : UserId) (charged : ℕ) : ℕ :=
  if owner = h.store.owner then 0
  else (h.vault.heldBytesFor owner + charged - roomEarned (proof owner)) -
    (h.vault.heldBytesFor owner - roomEarned (proof owner))

/-- What one account gets more is all that is lent more. -/
theorem promised_put (howner : h'.store.owner = h.store.owner) (owner : UserId) {charged : ℕ}
    (hheld : ∀ o, h'.vault.heldBytesFor o ≤
      h.vault.heldBytesFor o + if owner = o then charged else 0) :
    h'.promised proof ≤ h.promised proof + h.lentMore proof owner charged := by
  have hsingle : (∑ o : UserId, if owner = o then h.lentMore proof owner charged else 0) =
      h.lentMore proof owner charged := by
    rw [Finset.sum_ite_eq, if_pos (Finset.mem_univ _)]
  rw [← hsingle, promised, promised, ← Finset.sum_add_distrib]
  refine Finset.sum_le_sum fun o _ => ?_
  have ho := hheld o
  rw [howner]
  by_cases hown : o = h.store.owner
  · rw [if_pos hown, if_pos hown]
    exact Nat.zero_le _
  · rw [if_neg hown, if_neg hown]
    by_cases heq : owner = o
    · subst heq
      rw [if_pos rfl] at ho
      rw [if_pos rfl, lentMore, if_neg hown]
      omega
    · rw [if_neg heq] at ho
      rw [if_neg heq]
      omega

/-- A recount passes over nobody if every account that holds something on a promise is in the
book. -/
theorem Booked.recount (hb : h.Booked proof) (hproof : h.Proves proof) (unix : ℕ) {bound : ℕ}
    (hbound : h.promised proof ≤ bound) (hfits : bound < u64Max) :
    h.promised proof ≤ h.book.lentOnPromise h.store h.vault unix := by
  set owners := (h.book.claims.toList.map fun r => r.2.owner).dedup.filter
    fun owner => owner ≠ h.store.owner with howners
  have hnodup : owners.Nodup := (List.nodup_dedup _).filter _
  have hsum : h.book.lentOnPromise h.store h.vault unix = min ((owners.map fun owner =>
      h.vault.heldBytesFor owner - roomEarned (h.book.standing owner h.store unix).proved).sum)
      u64Max := by
    have hfold := FileTables.foldl_saturatingAdd (owners.map fun owner =>
      h.vault.heldBytesFor owner - roomEarned (h.book.standing owner h.store unix).proved) 0
        (Nat.zero_le _)
    rw [List.foldl_map, Nat.zero_add] at hfold
    exact hfold
  have hle : h.promised proof ≤ ∑ owner ∈ owners.toFinset,
      (h.vault.heldBytesFor owner - roomEarned (h.book.standing owner h.store unix).proved) := by
    refine (Finset.sum_le_sum_of_ne_zero fun owner _ hne => ?_).trans
      (Finset.sum_le_sum fun owner hmem => ?_)
    · have hother : owner ≠ h.store.owner := fun he => hne (if_pos he)
      rw [if_neg hother] at hne
      obtain ⟨device, held, hrow, rfl⟩ := hb owner hother (by omega)
      have hmem : (device, held) ∈ h.book.claims.toList := Table.mem_toList.mpr hrow
      rw [List.mem_toFinset, howners, List.mem_filter, List.mem_dedup]
      exact ⟨List.mem_map_of_mem (f := fun r => r.2.owner) hmem, decide_eq_true hother⟩
    · rw [List.mem_toFinset, howners, List.mem_filter] at hmem
      rw [if_neg (of_decide_eq_true hmem.2)]
      exact Nat.sub_le_sub_left (roomEarned_mono (hproof owner unix)) _
  rw [List.sum_toFinset _ hnodup] at hle
  rw [hsum]
  omega

theorem Lends.of_eq (hl : h.Lends proof) (howner : h'.store.owner = h.store.owner)
    (hvault : h'.vault = h.vault)
    (hpledge : h'.pledge = h.pledge) (hlent : h'.book.lent = h.book.lent) : h'.Lends proof := by
  have hle : h'.promised proof ≤ h.promised proof :=
    promised_le howner (fun owner => by rw [hvault]) fun _ => le_rfl
  refine ⟨hvault ▸ hl.vault, ?_, ?_⟩
  · rw [hpledge]
    exact hle.trans hl.capped
  · rw [hlent]
    exact fun hsome => hle.trans (hl.counted hsome)

theorem Lends.mono (hl : h.Lends proof)
    (hproof : ∀ owner, proof owner ≤ proof' owner) : h.Lends proof' := by
  have hle : h.promised proof' ≤ h.promised proof := promised_le rfl (fun _ => le_rfl) hproof
  exact ⟨hl.vault, hle.trans hl.capped, fun hsome => hle.trans (hl.counted hsome)⟩

/-- Fewer bytes, less lent. -/
theorem Lends.shrinks (hl : h.Lends proof) {v : Depot K} (hv : Depot.Shrinks h.vault v) :
    ({ h with vault := v } : Host K).Lends proof := by
  have hle : ({ h with vault := v } : Host K).promised proof ≤ h.promised proof :=
    promised_le rfl hv.heldFor fun _ => le_rfl
  exact ⟨hv.ok, hle.trans hl.capped, fun hsome => hle.trans (hl.counted hsome)⟩

/-! ### Asking -/

section
variable (caller : DeviceId) (owner : UserId) (incoming : ℕ) (m : Moment)

theorem Proves.admits (hproof : h.Proves proof) :
    (h.admits caller owner incoming m).1.Proves proof := by
  intro o unix
  have hclaims : (h.admits caller owner incoming m).1.book.claims = h.book.claims :=
    ClaimBook.claims_admits _ _ _ _ _ _ _ _ _
  unfold ClaimBook.standing
  rw [hclaims]
  exact hproof o unix

theorem Booked.admits (hb : h.Booked proof) : (h.admits caller owner incoming m).1.Booked proof := by
  have hclaims : (h.admits caller owner incoming m).1.book.claims = h.book.claims :=
    ClaimBook.claims_admits _ _ _ _ _ _ _ _ _
  intro o hother hheld
  rw [hclaims]
  exact hb o hother hheld

/-- A store of another account that the bound is asked for is counted in full if it is
admitted. -/
theorem Lends.admits (hl : h.Lends proof) (hproof : h.Proves proof) (hb : h.Booked proof)
    (hother : owner ≠ h.store.owner) :
    (h.admits caller owner incoming m).1.Lends proof ∧
      ((h.admits caller owner incoming m).2 = .ok () →
        h.promised proof + h.lentMore proof owner incoming ≤ ClaimBook.unprovenShare h.pledge.bytes ∧
          ((h.admits caller owner incoming m).1.book.lent.counted.isSome →
            h.promised proof + h.lentMore proof owner incoming ≤
              (h.admits caller owner incoming m).1.book.lent.total)) := by
  have hshare := ClaimBook.unprovenShare_lt h.pledge.fits
  have hrecount := hb.recount hproof m.unix hl.capped hshare
  have hspec := fun onPromise =>
    h.book.lend_spec h.store h.vault h.pledge.fits onPromise m.now hl.counted hrecount
  constructor
  · obtain hsame | ⟨-, -, onPromise, heq⟩ := h.book.admits_book caller owner incoming h.store h.vault
      h.pledge.bytes m.now m.unix
    · exact hl.of_eq rfl rfl rfl (congrArg ClaimBook.lent hsame)
    · have htotal : (h.admits caller owner incoming m).1.book.lent =
          (h.book.lend onPromise h.store h.vault h.pledge.bytes m.now m.unix).1.lent :=
        congrArg (fun r => (Prod.fst r).lent) heq
      refine ⟨hl.vault, hl.capped, fun _ => ?_⟩
      rw [htotal]
      exact (hspec onPromise).1
  · intro hok
    obtain ⟨-, -, heq⟩ := ClaimBook.admits_ok hother hok
    have hearned := roomEarned_mono (hproof owner m.unix)
    -- what is asked for on a promise is not less than what is lent more
    have hmore : h.lentMore proof owner incoming ≤ (h.vault.heldBytesFor owner + incoming -
        roomEarned (h.book.standing owner h.store m.unix).proved) -
        (h.vault.heldBytesFor owner - roomEarned (h.book.standing owner h.store m.unix).proved) := by
      rw [lentMore, if_neg hother]
      omega
    generalize (h.vault.heldBytesFor owner + incoming -
        roomEarned (h.book.standing owner h.store m.unix).proved) -
        (h.vault.heldBytesFor owner - roomEarned (h.book.standing owner h.store m.unix).proved) =
          onPromise
      at heq hmore
    by_cases hpos : 0 < onPromise
    · rw [if_pos hpos] at heq
      have hanswer : (h.book.lend onPromise h.store h.vault h.pledge.bytes m.now m.unix).2 = .ok () :=
        heq ▸ hok
      have htotal : (h.admits caller owner incoming m).1.book.lent =
          (h.book.lend onPromise h.store h.vault h.pledge.bytes m.now m.unix).1.lent :=
        congrArg (fun r => (Prod.fst r).lent) heq
      obtain ⟨hshared, hcounted⟩ := (hspec onPromise).2 hanswer
      refine ⟨by omega, fun _ => ?_⟩
      rw [htotal]
      omega
    · rw [if_neg hpos] at heq
      have hlent : (h.admits caller owner incoming m).1.book.lent = h.book.lent :=
        congrArg (fun r => (Prod.fst r).lent) heq
      have hzero : h.lentMore proof owner incoming = 0 := by omega
      rw [hzero, hlent, Nat.add_zero]
      exact ⟨hl.capped, hl.counted⟩

end

/-! ### Storing -/

/-- What one turn needs: to store a chunk, that every account that holds something on a
promise is in the book, and to store a segment, that proof earned the room for its
encoding. -/
def Turn.Backed [SealedLength K] (h : Host K) (proof : UserId → ℕ) : Turn K → Prop
  | .request (.storeChunk owner _ _) _ _ => owner ≠ h.store.owner → h.Booked proof
  | .request (.storeSegment envelope) _ m =>
    envelope.owner ≠ h.store.owner → h.vault.heldBytesFor envelope.owner + envelope.encodedLength ≤
      roomEarned (h.book.standing envelope.owner h.store m.unix).proved
  | _ => True

/-- Bytes of one account go to the vault, within the share and counted. -/
theorem Lends.put (h : Host K) (hvault : h'.vault.Ok) (howner : h'.store.owner = h.store.owner)
    (hpledge : h'.pledge = h.pledge) (owner : UserId) {charged : ℕ}
    (hheld : ∀ o, h'.vault.heldBytesFor o ≤ h.vault.heldBytesFor o + if owner = o then charged else 0)
    (hcapped : h.promised proof + h.lentMore proof owner charged ≤
      ClaimBook.unprovenShare h.pledge.bytes)
    (hcounted : h'.book.lent.counted.isSome →
      h.promised proof + h.lentMore proof owner charged ≤ h'.book.lent.total) : h'.Lends proof := by
  have hput : h'.promised proof ≤ h.promised proof + h.lentMore proof owner charged :=
    promised_put howner owner hheld
  refine ⟨hvault, ?_, fun hsome => hput.trans (hcounted hsome)⟩
  rw [hpledge]
  exact hput.trans hcapped

theorem heldBytesFor_putChunk_le (hvault : h.vault.Ok) (owner : UserId) (address : ChunkId)
    (sealed : Bytes) (o : UserId) : (h.vault.putChunk owner address sealed).1.heldBytesFor o ≤
      h.vault.heldBytesFor o + if owner = o then sealed.length else 0 := by
  rw [(hvault.putChunk owner address sealed).2.2 o]
  refine Nat.add_le_add_left ?_ _
  split_ifs with h1 h2 h2
  · exact le_rfl
  · exact absurd h1.1 h2
  · exact Nat.zero_le _
  · exact le_rfl

/-- A chunk of another account is stored. -/
theorem Lends.storeChunk (hl : h.Lends proof) (hproof : h.Proves proof) (hb : h.Booked proof)
    {owner : UserId}
    (hother : owner ≠ h.store.owner) (caller : DeviceId) (address : ChunkId) (sealed : Bytes)
    (m : Moment) :
    (h.storeChunk caller owner address sealed m).1.Lends proof := by
  refine storeChunk_rule
    (P := fun h => h.Lends proof ∧ h.Proves proof ∧ h.Booked proof ∧ owner ≠ h.store.owner)
    (R := fun h => h.Lends proof) (fun _ hp => hp.1) ?_ ?_ ?_ hl fun _ => ⟨hl, hproof, hb, hother⟩
  · rintro h ⟨hl, hproof, hb, hother⟩
    exact ⟨(hl.admits caller owner _ m hproof hb hother).1, hproof.admits caller owner _ m,
      hb.admits caller owner _ m, hother⟩
  · rintro h needed ⟨hl, hproof, hb, hother⟩
    have hevicted := hl.vault.evictMarked owner needed m.unix
    refine ⟨hl.shrinks hevicted, hproof, fun o ho hheld => hb o ho ?_, hother⟩
    exact hheld.trans_le (hevicted.heldFor o)
  · rintro h ⟨hl, hproof, hb, hother⟩ hok
    obtain ⟨hcapped, hcounted⟩ := (hl.admits caller owner sealed.length m hproof hb hother).2 hok
    exact Lends.put h (hl.vault.putChunk owner address sealed).1 rfl rfl owner
      (heldBytesFor_putChunk_le hl.vault owner address sealed) hcapped hcounted

theorem admits_own (h : Host K) (caller : DeviceId) (incoming : ℕ) (m : Moment) :
    (h.admits caller h.store.owner incoming m).1.book = h.book := by
  obtain hsame | ⟨hother, -⟩ := h.book.admits_book caller h.store.owner incoming h.store h.vault
    h.pledge.bytes m.now m.unix
  · exact hsame
  · exact absurd rfl hother

/-- The own account is no part of it. -/
theorem Lends.storeChunk_own (hl : h.Lends proof) (caller : DeviceId) (address : ChunkId)
    (sealed : Bytes)
    (m : Moment) : (h.storeChunk caller h.store.owner address sealed m).1.Lends proof := by
  refine storeChunk_rule (P := fun h' => h'.Lends proof ∧ h'.store.owner = h.store.owner)
    (R := fun h => h.Lends proof) (fun _ hp => hp.1) ?_ ?_ ?_ hl fun _ => ⟨hl, rfl⟩
  · rintro h' ⟨hl, howner⟩
    rw [← howner]
    exact ⟨hl.of_eq rfl rfl rfl (congrArg ClaimBook.lent (h'.admits_own caller _ m)), rfl⟩
  · rintro h' needed ⟨hl, howner⟩
    exact ⟨hl.shrinks (hl.vault.evictMarked _ needed m.unix), howner⟩
  · rintro h' ⟨hl, howner⟩ -
    rw [← howner]
    have hzero : h'.lentMore proof h'.store.owner sealed.length = 0 := if_pos rfl
    refine Lends.put h' (hl.vault.putChunk _ address sealed).1 rfl rfl h'.store.owner
      (heldBytesFor_putChunk_le hl.vault _ address sealed) ?_ ?_
    · rw [hzero, Nat.add_zero]
      exact hl.capped
    · show (h'.admits caller h'.store.owner _ m).1.book.lent.counted.isSome → _
      rw [hzero, Nat.add_zero, h'.admits_own]
      exact hl.counted

section
variable [SealedLength K]

theorem heldBytesFor_putSegment_le (hvault : h.vault.Ok) (envelope : SegmentEnvelope K) (o : UserId) :
    (h.vault.putSegment envelope).1.heldBytesFor o ≤
      h.vault.heldBytesFor o + if envelope.owner = o then envelope.encodedLength else 0 := by
  obtain ⟨-, ⟨hsame, -⟩ | ⟨-, -, hheld⟩⟩ := hvault.putSegment envelope
  · rw [hsame]
    exact Nat.le_add_right _ _
  · exact (hheld o).le

/-- A segment of the own account, or one that proof earned the room for, is stored. -/
theorem Lends.storeSegment (hl : h.Lends proof) (hproof : h.Proves proof)
    {envelope : SegmentEnvelope K} {m : Moment} (hearned : envelope.owner ≠ h.store.owner →
      h.vault.heldBytesFor envelope.owner + envelope.encodedLength ≤
        roomEarned (h.book.standing envelope.owner h.store m.unix).proved)
    (caller : DeviceId) : (h.storeSegment caller envelope m).1.Lends proof := by
  have hbody := envelope.bodyLength_lt_encodedLength
  -- nothing is asked for on a promise
  have hasked : (h.admits caller envelope.owner envelope.bodyLength m).1 = h := by
    obtain hsame | ⟨hother, hpos, -⟩ :=
      h.book.admits_book caller envelope.owner envelope.bodyLength h.store
      h.vault h.pledge.bytes m.now m.unix
    · exact congrArg (fun book => ({ h with book := book } : Host K)) hsame
    · have hfits := hearned hother
      rw [saturatingAdd] at hpos
      omega
  have hzero : h.lentMore proof envelope.owner envelope.encodedLength = 0 := by
    unfold lentMore
    split_ifs with hother
    · rfl
    · have hfits := hearned hother
      have hmono := roomEarned_mono (hproof envelope.owner m.unix)
      omega
  refine storeSegment_rule (P := fun h' => h' = h) (R := fun h => h.Lends proof) ?_ ?_ ?_ hl
    fun _ => rfl
  · rintro h' rfl
    exact hl
  · rintro h' rfl
    exact hasked
  · rintro h' rfl -
    rw [hasked]
    refine Lends.put h' (hl.vault.putSegment envelope).1 rfl rfl envelope.owner
      (heldBytesFor_putSegment_le hl.vault envelope) ?_ ?_
    · rw [hzero, Nat.add_zero]
      exact hl.capped
    · rw [hzero, Nat.add_zero]
      exact hl.counted

/-! ### Runs -/

variable {C : ClaimCodec} {H : PeerHashes}

/-- A backed turn lends no more than the share. -/
theorem Lends.after (hl : h.Lends proof) (hproof : h.Proves proof) {t : Turn K}
    (ht : t.Backed h proof) :
    (h.after C H t).Lends proof := by
  cases t with
  | own op => exact hl.of_eq rfl rfl rfl rfl
  | note device verdict at' => exact hl.of_eq rfl rfl rfl (h.book.lent_note device verdict at')
  | restart => exact ⟨hl.vault, hl.capped, fun hsome => by cases hsome⟩
  | request request caller m =>
    show (h.handle C H request caller m).1.Lends proof
    have hhandled := h.handled C H request caller m
    generalize (h.handle C H request caller m).1 = h' at hhandled
    cases hhandled with
    | same => exact hl
    | storeChunk owner address sealed =>
      by_cases howner : owner = h.store.owner
      · subst howner
        exact hl.storeChunk_own caller address sealed m
      · exact hl.storeChunk hproof (ht howner) howner caller address sealed m
    | storeSegment envelope => exact hl.storeSegment hproof ht caller
    | mayEvict owner chunks =>
        exact hl.shrinks ((h.vault.markEvictable_same owner chunks m.unix).shrinks hl.vault)
    | hosted chunks => exact hl.of_eq rfl rfl rfl rfl
    | dropped chunks => exact hl.of_eq rfl rfl rfl rfl
    | leaving => exact hl.of_eq rfl rfl rfl rfl
    | draining seconds => exact hl.of_eq rfl rfl rfl rfl
    | claim bytes =>
      obtain ⟨kept, store, hstore, heq⟩ := h.claim_cases C caller bytes m
      rw [heq]
      refine hl.of_eq ?_ rfl rfl (ClaimBook.lent_take C _ _ _ _ _ _ _)
      obtain rfl | rfl := hstore <;> rfl

/-- A run in which every turn is backed and what an account has proved never falls. With
each turn comes what the accounts have proved after it. -/
def Backed (C : ClaimCodec) (H : PeerHashes) (h : Host K) (proof : UserId → ℕ) :
    List (Turn K × (UserId → ℕ)) → Prop
  | [] => True
  | (t, proof') :: rest =>
    t.Backed h proof ∧ (∀ owner, proof owner ≤ proof' owner) ∧ (h.after C H t).Proves proof' ∧
      Backed C H (h.after C H t) proof' rest

/-- What the accounts have proved in the end. -/
def provedAfter (proof : UserId → ℕ) : List (Turn K × (UserId → ℕ)) → UserId → ℕ
  | [] => proof
  | (_, proof') :: rest => provedAfter proof' rest

theorem Lends.run : ∀ (turns : List (Turn K × (UserId → ℕ))) {h : Host K} {proof : UserId → ℕ},
    h.Lends proof → h.Proves proof → h.Backed C H proof turns →
    (h.run C H (turns.map Prod.fst)).Lends (provedAfter proof turns)
  | [], _, _, hl, _, _ => hl
  | _ :: rest, _, _, hl, hproof, ⟨ht, hmono, hproof', hrest⟩ =>
    Lends.run rest ((hl.after hproof ht).mono hmono) hproof' hrest

/-- **The share lent on promises is a cap**, over every backed run of a process that lends
within it when it starts, restarts included. -/
theorem promises_are_capped (hvault : h.vault.Ok) (hnew : h.book.lent.counted = none)
    (hproof : h.Proves proof) (hstart : h.promised proof ≤ ClaimBook.unprovenShare h.pledge.bytes)
    (turns : List (Turn K × (UserId → ℕ))) (hbacked : h.Backed C H proof turns) :
    (h.run C H (turns.map Prod.fst)).promised (provedAfter proof turns) ≤
      ClaimBook.unprovenShare (h.run C H (turns.map Prod.fst)).pledge.bytes := by
  have hlends : h.Lends proof := ⟨hvault, hstart, fun hsome => by rw [hnew] at hsome; cases hsome⟩
  exact (hlends.run turns hproof hbacked).capped

omit [SealedLength K] in
/-- Where no device is in a record, nothing is proved. -/
theorem Unproven.proves (hu : h.Unproven Set.univ) : h.Proves fun _ => 0 := by
  intro owner unix
  rw [ClaimBook.proved_eq_zero fun device _ _ _ => hu.provedBy (Set.mem_univ device)]

end

/-- Device `d` claims to be one of account `d + 100` that pledges seven bytes. -/
def numberedClaims : ClaimCodec where
  Signature := Unit
  decode bytes := bytes.head?.map fun d =>
    (⟨Fin.ofNat _ (d.toNat + 100), Fin.ofNat _ d.toNat, 7, 1, false⟩, ())
  verifyOrigin _ _ := true

theorem ten_fits : 10 ≤ u64Max := by decide

/-- A new host that lends three bytes on promises. -/
def lender : Host symbolic := { fresh (.new 1 2 fourBytes) with pledge := ⟨10, ten_fits⟩ }

/-- Device `d` presents its claim, is confirmed and stores three bytes. -/
def borrows (d : ℕ) : List (Turn symbolic) :=
  [.request (.claim [UInt8.ofNat d]) (Fin.ofNat _ d) moment, .note (Fin.ofNat _ d) .live 0,
    .request (.storeChunk (Fin.ofNat _ (d + 100)) 8 [1, 2, 3]) (Fin.ofNat _ d) moment]

theorem lender_unproven (turns : List (Turn symbolic)) (hsilent : ∀ t ∈ turns, t.Silent Set.univ) :
    (lender.run numberedClaims noHashes turns).Unproven Set.univ := by
  have hstart : lender.Unproven Set.univ :=
    ⟨Ledger.new_oneRelation, fun _ _ _ => Std.ExtTreeMap.getElem?_empty⟩
  exact List.foldlRecOn (motive := Unproven Set.univ) turns _ hstart fun _ hu t ht =>
    hu.after (hsilent t ht)

theorem heldBytesFor_new (owner : UserId) : (Depot.new : Depot K).heldBytesFor owner = 0 := by
  rw [Depot.new_ok.heldBytesFor_eq]
  show Table.weigh _ ∅ + Table.weigh _ ∅ = 0
  rw [Table.weigh_empty]

/-- Nothing is lent where nothing is held. -/
theorem promised_of_new {h : Host K} (hvault : h.vault = .new) (proof : UserId → ℕ) :
    h.promised proof = 0 := by
  refine Finset.sum_eq_zero fun owner _ => ?_
  rw [hvault, heldBytesFor_new, Nat.zero_sub, ite_self]

/-- Device 5 borrows the share. -/
theorem promises_are_capped_borrowed :
    (lender.run numberedClaims noHashes (borrows 5)).promised (fun _ => 0) ≤
      ClaimBook.unprovenShare (lender.run numberedClaims noHashes (borrows 5)).pledge.bytes := by
  have hsilent : ∀ t ∈ borrows 5, t.Silent Set.univ := by
    intro t ht
    simp only [borrows, List.mem_cons, List.not_mem_nil, or_false] at ht
    obtain rfl | rfl | rfl := ht <;> trivial
  have hproves : ∀ n, (lender.run numberedClaims noHashes ((borrows 5).take n)).Proves fun _ => 0 :=
    fun n => (lender_unproven _ fun t ht => hsilent t (List.mem_of_mem_take ht)).proves
  have hempty : (lender.run numberedClaims noHashes ((borrows 5).take 2)).vault = .new := rfl
  have hbooked : (lender.run numberedClaims noHashes ((borrows 5).take 2)).Booked fun _ => 0 := by
    intro owner _ hheld
    rw [hempty, heldBytesFor_new] at hheld
    omega
  have hstart : lender.promised (fun _ => 0) ≤ ClaimBook.unprovenShare lender.pledge.bytes := by
    rw [promised_of_new rfl]
    exact Nat.zero_le _
  exact promises_are_capped Depot.new_ok rfl (hproves 0) hstart
    ((borrows 5).map fun t => (t, fun _ => 0))
    ⟨trivial, fun _ => le_rfl, hproves 1, trivial, fun _ => le_rfl, hproves 2, fun _ => hbooked,
      fun _ => le_rfl, hproves 3, trivial⟩

/-- After a restart, what one account holds is forgotten, and the share is lent to another. -/
theorem restart_lends_twice :
    let h' := lender.run numberedClaims noHashes (borrows 5 ++ [.restart] ++ borrows 6)
    h'.store.index.ledger.holderCounts.size = 0 ∧ ClaimBook.unprovenShare h'.pledge.bytes = 3 ∧
      6 ≤ h'.promised fun _ => 0 := by
  intro h'
  have hrun : h'.store.index.ledger.holderCounts.size = 0 ∧
    ClaimBook.unprovenShare h'.pledge.bytes = 3 ∧
      h'.vault.heldBytesFor 105 = 3 ∧ h'.vault.heldBytesFor 106 = 3 ∧ h'.store.owner = 2 := by
    decide +kernel
  obtain ⟨hrecords, hshare, hfive, hsix, howner⟩ := hrun
  refine ⟨hrecords, hshare, ?_⟩
  have hearned : roomEarned 0 = 0 := rfl
  calc 6 = ∑ owner ∈ ({105, 106} : Finset UserId), if owner = h'.store.owner then 0
        else h'.vault.heldBytesFor owner - roomEarned 0 := by
        rw [Finset.sum_pair (by decide), howner, if_neg (by decide), if_neg (by decide), hfive,
          hsix, hearned]
    _ ≤ h'.promised fun _ => 0 := Finset.sum_le_sum_of_subset (Finset.subset_univ _)

end Host

end Itsanas
