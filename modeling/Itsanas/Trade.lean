/-
# Spare copies for room

`store_chunk` of `itsanas-net/src/service.rs`: when an account has stored at a host what its pledge
earns, chunks that it has marked make room for the one it sends, and the bound is asked once more.
How much must go is read out of the text of the refusal (`overage`), and what it reads there are the
figures of the refusal (`overage_text`). Once so much is gone the account is below its bound
(`Host.asked_again`). But the bound has a second part, what the host lends on promises alone, which
was not asked before the chunks went. If it has no room the chunk is refused, and the copies have
gone for nothing (`Host.evicted_in_vain`); if it has, the chunk is stored (`Host.trade_iff`).
-/
import Itsanas.Eviction
import Itsanas.Promise

namespace Itsanas

variable {K : Crypto}

/-! ### The figures in a refusal -/

/-- What an account is answered that has stored what its pledge earns. -/
def accountFull : String := "this account has stored here what its pledge earns"

/-- The text before and after the first `sep`. -/
def splitOnce (sep : Str) : Str → Option (Str × Str)
  | [] => if sep.isEmpty then some ([], []) else none
  | c :: rest =>
    if sep.isPrefixOf (c :: rest) then some ([], (c :: rest).drop sep.length)
    else (splitOnce sep rest).map fun parts => (c :: parts.1, parts.2)

/-- A number without its plus sign. -/
def unsigned : Str → Str
  | '+' :: rest => rest
  | text => text

/-- A 64-bit number in decimal; a plus sign may be before it. -/
def parseU64 (text : Str) : Option ℕ :=
  let digits := unsigned text
  if digits.isEmpty ∨ ¬ digits.all Char.isDigit then none
  else
    let n := Nat.ofDigitChars 10 digits 0
    if n ≤ u64Max then some n else none

/-- Bytes that must go before `incoming` fits, read from the text of a refusal; `incoming` for a
text of another shape. -/
def overage (why : Str) (incoming : ℕ) : ℕ :=
  match splitOnce ": ".toList why with
  | none => incoming
  | some (_, rest) =>
    match rest.splitOn ' ' with
    | mine :: word :: allowance :: _ =>
      if word = "of".toList then
        match parseU64 mine, parseU64 allowance with
        | some mine, some allowance =>
          let past := saturatingAdd mine incoming - allowance
          if 0 < past then past else incoming
        | _, _ => incoming
      else incoming
    | _ => incoming

theorem splitOnce_of_head {first : Char} {sep rest : Str} :
    ∀ {head : Str}, first ∉ head → splitOnce (first :: sep) (head ++ (first :: sep ++ rest)) =
      some (head, rest)
  | [], _ => by
    rw [List.nil_append, List.cons_append, splitOnce]
    have hstarts : (first :: sep).isPrefixOf (first :: (sep ++ rest)) = true :=
      List.isPrefixOf_iff_prefix.mpr (List.prefix_append (first :: sep) rest)
    rw [if_pos hstarts]
    congr 2
    exact List.drop_left
  | c :: head, h => by
    have hne : first ≠ c := fun heq => h (heq ▸ List.mem_cons_self)
    have hno : ¬ (first :: sep).isPrefixOf (c :: (head ++ (first :: sep ++ rest))) = true := by
      rw [List.isPrefixOf_iff_prefix, List.cons_prefix_cons]
      exact fun hstarts => hne hstarts.1
    rw [List.cons_append, splitOnce, if_neg hno, splitOnce_of_head fun hmem =>
      h (List.mem_cons_of_mem _ hmem)]
    rfl

theorem parseU64_toDigits {n : ℕ} (h : n ≤ u64Max) : parseU64 (Nat.toDigits 10 n) = some n := by
  have hdigits : ∀ c ∈ Nat.toDigits 10 n, c.isDigit = true := fun c hc =>
    Nat.isDigit_of_mem_toDigits (by decide) (by decide) hc
  have hne : Nat.toDigits 10 n ≠ [] := Nat.toDigits_ne_nil
  have hplain : unsigned (Nat.toDigits 10 n) = Nat.toDigits 10 n := by
    unfold unsigned
    split
    · rename_i rest heq
      have hplus := hdigits '+' (heq ▸ List.mem_cons_self)
      cases hplus
    · rfl
  unfold parseU64
  dsimp only
  rw [hplain]
  rw [if_neg, Nat.ofDigitChars_ten_toDigits, if_pos h]
  rintro (hempty | hother)
  · exact hne (List.isEmpty_iff.mp hempty)
  · exact hother (List.all_eq_true.mpr hdigits)

theorem space_not_mem_toDigits (n : ℕ) : ∀ c ∈ Nat.toDigits 10 n, (c == ' ') = false := by
  intro c hc
  have hdigit := Nat.isDigit_of_mem_toDigits (by decide) (by decide) hc
  refine beq_eq_false_iff_ne.mpr fun heq => ?_
  subst heq
  cases hdigit

/-- Why an account's room is used up, before the figures. -/
def fullReason (contradicted : Bool) : Str :=
  if contradicted then
    ("a device of this account failed this host's storage audits; " ++
      "it stores here only what its devices have proved they hold for this host").toList
  else accountFull.toList

theorem text_full (contradicted : Bool) (mine allowance pledged proved : ℕ) :
    ∃ rest, (NotAdmitted.full contradicted mine allowance pledged proved).text.toList =
      fullReason contradicted ++ (':' :: [' '] ++
        (Nat.toDigits 10 mine ++
          ' ' :: ("of".toList ++ ' ' :: (Nat.toDigits 10 allowance ++ ' ' :: rest)))) := by
  have hreason : (if contradicted = true then
        "a device of this account failed this host's storage audits; " ++
          "it stores here only what its devices have proved they hold for this host"
      else "this account has stored here what its pledge earns").toList =
          fullReason contradicted := by
    cases contradicted <;> rfl
  have hof : " of ".toList = ' ' :: ("of".toList ++ [' ']) := by decide +kernel
  have hcolon : ": ".toList = ':' :: [' '] := by decide +kernel
  have hbytes : " bytes (pledged ".toList = ' ' :: "bytes (pledged ".toList := by decide +kernel
  refine ⟨"bytes (pledged ".toList ++ Nat.toDigits 10 pledged ++ ", proved ".toList ++
    Nat.toDigits 10 proved ++
    ")".toList, ?_⟩
  unfold NotAdmitted.text
  simp only [String.toList_append, toString, Nat.toList_repr]
  rw [hreason, hof, hcolon, hbytes]
  simp only [List.append_assoc, List.cons_append, List.nil_append]

theorem colon_not_mem_fullReason (contradicted : Bool) : ':' ∉ fullReason contradicted := by
  have hall : (fullReason contradicted).all (· ≠ ':') = true := by
    cases contradicted <;> decide +kernel
  exact fun hmem => of_decide_eq_true (List.all_eq_true.mp hall _ hmem) rfl

/-- **The figures are read back.** From the text of a refusal for want of room comes the amount that
its figures say. -/
theorem overage_text {mine allowance : ℕ} (hmine : mine ≤ u64Max) (hallowance : allowance ≤ u64Max)
    (contradicted : Bool) (pledged proved incoming : ℕ) :
    overage (NotAdmitted.full contradicted mine allowance pledged proved).text.toList incoming =
      (NotAdmitted.full contradicted mine allowance pledged proved).overage incoming := by
  obtain ⟨rest, htext⟩ := text_full contradicted mine allowance pledged proved
  have hcolon : ": ".toList = ':' :: [' '] := by decide +kernel
  have hword : "of".toList.all (fun c => !(c == ' ')) = true := by decide +kernel
  have hof : ∀ c ∈ "of".toList, (c == ' ') = false := fun c hc =>
    Bool.not_eq_true' _ ▸ List.all_eq_true.mp hword c hc
  have hspace : (' ' == ' ') = true := rfl
  have hwords : (Nat.toDigits 10 mine ++
    ' ' :: ("of".toList ++ ' ' :: (Nat.toDigits 10 allowance ++ ' ' :: rest))).splitOn ' ' =
      Nat.toDigits 10 mine :: "of".toList :: Nat.toDigits 10 allowance :: rest.splitOn ' ' := by
    unfold List.splitOn
    rw [List.splitOnP_append_cons_of_forall_mem (space_not_mem_toDigits mine) _ hspace,
      List.splitOnP_append_cons_of_forall_mem hof _ hspace,
      List.splitOnP_append_cons_of_forall_mem (space_not_mem_toDigits allowance) _ hspace]
  unfold overage
  rw [htext, hcolon, splitOnce_of_head (colon_not_mem_fullReason contradicted)]
  dsimp only
  rw [hwords]
  dsimp only
  rw [if_pos rfl, parseU64_toDigits hmine, parseU64_toDigits hallowance]
  rfl

theorem overage_text_eight : overage (NotAdmitted.full false 8 10 20 5).text.toList 6 = 4 :=
  overage_text (by decide) (by decide) false 20 5 6

/-- **A full account is told by the beginning of the text.** -/
theorem accountFull_text (why : NotAdmitted) :
    accountFull.toList.isPrefixOf why.text.toList = why.accountFull := by
  cases why with
  | full contradicted mine allowance pledged proved =>
    obtain ⟨rest, htext⟩ := text_full contradicted mine allowance pledged proved
    rw [htext]
    cases contradicted with
    | false => exact List.isPrefixOf_iff_prefix.mpr (List.prefix_append accountFull.toList _)
    | true =>
      refine Bool.eq_false_iff.mpr fun hstarts => ?_
      obtain ⟨tail, htail⟩ := List.isPrefixOf_iff_prefix.mp hstarts
      have hfull : accountFull.toList.head? = some 't' := by decide +kernel
      have hother : (fullReason true).head? = some 'a' := by decide +kernel
      have hheads := congrArg List.head? htail
      rw [List.head?_append, List.head?_append, hfull, hother] at hheads
      cases hheads
  | updateRequired => decide +kernel
  | otherAccount => decide +kernel
  | withdrawn => decide +kernel
  | unconfirmed => decide +kernel
  | unprovenFull => decide +kernel

/-! ### Asking the bound -/

variable {why : NotAdmitted} {v v' : Depot K}

namespace ClaimBook

variable {book : ClaimBook} {caller : DeviceId} {owner : UserId} {st : Store K} {now unix : ℕ}

/-- The caller is a confirmed device of `owner`, which is another account than the host's. -/
def Speaks (book : ClaimBook) (caller : DeviceId) (owner : UserId) (st : Store K)
    (now : ℕ) : Prop :=
  ∃ held, book.claims[caller]? = some held ∧ held.owner = owner ∧ owner ≠ st.owner ∧
    held.standing ≠ .withdrawn ∧ Standing.confirmed standingFor now held.standing = true

/-- What is held on promises once `freed` bytes of `owner` are gone. -/
def lentWithout (book : ClaimBook) (st : Store K) (vault : Depot K) (owner : UserId)
    (freed unix : ℕ) : ℕ :=
  let owners := (book.claims.toList.map fun r => r.2.owner).dedup.filter fun owner => owner ≠
    st.owner
  owners.foldl (fun total o =>
    saturatingAdd total
      ((if o = owner then vault.heldBytesFor o - freed else vault.heldBytesFor o) -
      roomEarned (book.standing o st unix).proved)) 0

/-- The total that a promise is held against: the one remembered, unless that is old, or has no room
and is not of just now. -/
def lentThen (book : ClaimBook) (promised recounted pledge now : ℕ) : ℕ :=
  let stale := book.lent.counted.all fun at' => recountEvery ≤ now - at'
  let past := unprovenShare pledge < saturatingAdd book.lent.total promised
  let recent := book.lent.counted.any fun at' => now - at' < recountOnRefusal
  if stale ∨ past ∧ ¬recent then recounted else book.lent.total

/-- What the bound comes to for a confirmed device. -/
theorem Speaks.admits (h : book.Speaks caller owner st now) (incoming : ℕ) (vault : Depot K)
    (pledge unix : ℕ) :
    let account := book.standing owner st unix
    let allowance :=
      if account.contradicted then roomEarned account.proved else roomEarned account.pledged
    let mine := vault.heldBytesFor owner
    let promised :=
      (saturatingAdd mine incoming - roomEarned account.proved) - (mine - roomEarned account.proved)
    book.admits caller owner incoming st vault pledge now unix =
      if allowance < saturatingAdd mine incoming then
        (book, .error (.full account.contradicted mine allowance account.pledged account.proved))
      else if 0 < promised then book.lend promised st vault pledge now unix
      else (book, .ok ()) := by
  obtain ⟨held, hrow, howner, hother, hlive, hconfirmed⟩ := h
  unfold ClaimBook.admits
  rw [hrow]
  dsimp only
  rw [if_neg (not_not.mpr howner), if_neg hother, if_neg hlive, if_neg (not_not.mpr hconfirmed)]

/-- Who is told that the account is full is a confirmed device of it. -/
theorem speaks_of_accountFull {incoming : ℕ} {vault : Depot K} {pledge : ℕ}
    (h : (book.admits caller owner incoming st vault pledge now unix).2 = .error why)
    (hfull : why.accountFull = true) : book.Speaks caller owner st now := by
  unfold admits at h
  cases hrow : book.claims[caller]? with
  | none =>
    rw [hrow] at h
    cases h
    cases hfull
  | some held =>
    rw [hrow] at h
    dsimp only at h
    by_cases howner : held.owner ≠ owner
    · rw [if_pos howner] at h
      cases h
      cases hfull
    rw [if_neg howner] at h
    by_cases hother : owner = st.owner
    · rw [if_pos hother] at h
      cases h
    rw [if_neg hother] at h
    by_cases hlive : held.standing = .withdrawn
    · rw [if_pos hlive] at h
      cases h
      cases hfull
    rw [if_neg hlive] at h
    by_cases hconfirmed : Standing.confirmed standingFor now held.standing = true
    · exact ⟨held, hrow, not_not.mp howner, hother, hlive, hconfirmed⟩
    · rw [if_pos hconfirmed] at h
      cases h
      cases hfull

theorem lend_eq (promised : ℕ) (vault : Depot K) (pledge : ℕ) :
    (book.lend promised st vault pledge now unix).2 =
      if unprovenShare pledge < saturatingAdd
        (book.lentThen promised (book.lentOnPromise st vault unix) pledge now) promised then
        .error .unprovenFull
      else .ok () := by
  unfold lend lentThen
  dsimp only
  split_ifs <;> rfl

/-- The account is full, for one that nothing speaks against, when its pledge earns less than it
would hold. -/
theorem Speaks.full_iff (h : book.Speaks caller owner st now) {incoming : ℕ} {vault : Depot K}
    {pledge : ℕ} :
    (∃ why, (book.admits caller owner incoming st vault pledge now unix).2 = .error why ∧
        why.accountFull = true) ↔
      (book.standing owner st unix).contradicted = false ∧
        roomEarned (book.standing owner st unix).pledged <
          saturatingAdd (vault.heldBytesFor owner) incoming := by
  rw [h.admits]
  cases hcontradicted : (book.standing owner st unix).contradicted with
  | true =>
    simp only [if_true, Bool.true_eq_false, false_and, iff_false, not_exists, not_and]
    intro why hwhy hfull
    split_ifs at hwhy
    · cases hwhy
      cases hfull
    · rw [lend_eq] at hwhy
      split_ifs at hwhy
      cases hwhy
      cases hfull
  | false =>
    simp only [Bool.false_eq_true, if_false, true_and]
    constructor
    · rintro ⟨why, hwhy, hfull⟩
      split_ifs at hwhy with hpast
      · exact hpast
      · rw [lend_eq] at hwhy
        split_ifs at hwhy
        cases hwhy
        cases hfull
    · intro hpast
      rw [if_pos hpast]
      exact ⟨_, rfl, rfl⟩

/-- What is lent is counted with the chunks that are gone. -/
theorem lentOnPromise_freed {freed : ℕ} (h : Depot.Freed owner freed v v') :
    book.lentOnPromise st v' unix = book.lentWithout st v owner freed unix := by
  have hheld : ∀ o, v'.heldBytesFor o =
      if o = owner then v.heldBytesFor o - freed else v.heldBytesFor o := by
    intro o
    by_cases heq : o = owner
    · have hown := h.own
      rw [if_pos heq, heq]
      omega
    · rw [if_neg heq, h.others o heq]
  unfold lentOnPromise lentWithout
  simp only [hheld]

end ClaimBook

/-! ### The trade -/

namespace Host

variable {h : Host K} {caller : DeviceId} {owner : UserId} {address : ChunkId} {sealed : Bytes}
  {m : Moment}

/-- A chunk that was held is not held any more. -/
def Loses (v v' : Depot K) : Prop :=
  ∃ key : UserId ×ₗ ChunkId, (v.chunks[key]?).isSome ∧ v'.chunks[key]? = none

/-- The chunk is within the pledge, and the account whose confirmed device sends it has stored what
its pledge earns. -/
structure Full (h : Host K) (caller : DeviceId) (owner : UserId) (incoming : ℕ)
    (m : Moment) : Prop where
  pledge : h.wouldExceedPledge incoming = false
  speaks : h.book.Speaks caller owner h.store m.now
  clean : (h.book.standing owner h.store m.unix).contradicted = false
  past : roomEarned (h.book.standing owner h.store m.unix).pledged <
    h.vault.heldBytesFor owner + incoming

/-- Where the account is full and what it has marked would make room, what it would then hold on a
promise alone fits what the host lends. -/
def PromiseFits (h : Host K) (caller : DeviceId) (owner : UserId) (incoming : ℕ)
    (m : Moment) : Prop :=
  let account := h.book.standing owner h.store m.unix
  let earned := roomEarned account.proved
  let needed := h.vault.heldBytesFor owner + incoming - roomEarned account.pledged
  let freed := h.vault.spareRoom owner needed m.unix
  let mine := h.vault.heldBytesFor owner - freed
  let promised := (mine + incoming - earned) - (mine - earned)
  let lent := h.book.lentThen promised (h.book.lentWithout h.store h.vault owner freed m.unix)
    h.pledge.bytes m.now
  h.Full caller owner incoming m → needed ≤ freed → 0 < promised →
    saturatingAdd lent promised ≤ ClaimBook.unprovenShare h.pledge.bytes

theorem not_loses_of_same (h : Depot.SameBytes v v') : ¬ Loses v v' := by
  rintro ⟨key, hrow, hnone⟩
  rw [h.chunks] at hnone
  rw [hnone] at hrow
  cases hrow

/-- An eviction that freed something took a chunk. -/
theorem loses_of_evicted {needed now freed : ℕ} {taken : List (ℕ × ChunkId)}
    (h : Depot.Evicted v owner needed now v' freed taken) (hfreed : 0 < freed) : Loses v v' := by
  have hsome : ∃ mark ∈ taken, (v.chunks[Depot.chunkKey owner mark.2]?).isSome := by
    by_contra hnone
    have hzero : v.sizesOfMarks owner taken = 0 := by
      refine List.sum_eq_zero fun size hsize => ?_
      obtain ⟨mark, hmark, rfl⟩ := List.mem_map.mp hsize
      cases hrow : v.chunks[Depot.chunkKey owner mark.2]? with
      | none => rfl
      | some size => exact absurd ⟨mark, hmark, by rw [hrow]; rfl⟩ hnone
    rw [h.sizes, hzero] at hfreed
    exact Nat.lt_irrefl 0 hfreed
  obtain ⟨mark, hmark, hrow⟩ := hsome
  refine ⟨Depot.chunkKey owner mark.2, hrow, ?_⟩
  rw [h.chunks, if_pos (List.mem_map.mpr ⟨mark, hmark, rfl⟩)]

theorem weigh_le_weigh {κ ν : Type} [Ord κ] [Std.TransOrd κ] {f g : κ → ν → ℕ}
    (h : ∀ k n, f k n ≤ g k n) (t : Table κ ν) : t.weigh f ≤ t.weigh g := by
  unfold Table.weigh
  exact List.sum_le_sum fun r _ => h r.1 r.2

/-- What is held for one owner is part of what is held. -/
theorem heldBytesFor_le {v : Depot K} (h : v.Totalled) (owner : UserId) :
    v.heldBytesFor owner ≤ v.heldBytes := by
  rw [h.heldBytes_eq, h.heldBytesFor_eq]
  have hpart : ∀ (key : UserId) (n : ℕ), (if key = owner then n else 0) ≤ n := by
    intro key n
    split_ifs
    · exact Nat.le_refl _
    · exact Nat.zero_le _
  exact Nat.add_le_add (weigh_le_weigh (fun key n => hpart _ n) _)
    (weigh_le_weigh (fun key n => hpart _ n) _)

theorem hasChunk_putChunk (v : Depot K) (owner : UserId) (address : ChunkId) (sealed : Bytes) :
    (v.putChunk owner address sealed).1.hasChunk owner address = true := by
  unfold Depot.hasChunk Depot.getChunk
  rw [Depot.blobs_putChunk, Std.ExtTreeMap.getElem?_insert_self]
  rfl

/-- A chunk that the bound refuses for another reason than a full account leaves all as it is. -/
theorem storeChunk_refused (hpledge : h.wouldExceedPledge sealed.length = false)
    (hrefused : (h.admits caller owner sealed.length m).2 = .error why)
    (hfull : why.accountFull = false) :
    (h.storeChunk caller owner address sealed m).1.vault = h.vault := by
  unfold storeChunk
  dsimp only
  rw [hpledge]
  rcases hadmits : h.admits caller owner sealed.length m with ⟨h₁, answer⟩
  have hvault : h₁.vault = h.vault := congrArg (fun r => (Prod.fst r).vault) hadmits.symm
  rw [hadmits] at hrefused
  cases hrefused
  dsimp only
  rw [hfull]
  exact hvault

theorem storeChunk_admitted (hpledge : h.wouldExceedPledge sealed.length = false)
    (hadmitted : (h.admits caller owner sealed.length m).2 = .ok ()) :
    (h.storeChunk caller owner address sealed m).2 = .stored true ∧
      (h.storeChunk caller owner address sealed m).1.vault.hasChunk owner address = true := by
  unfold storeChunk
  dsimp only
  rw [hpledge]
  rcases hadmits : h.admits caller owner sealed.length m with ⟨h₁, answer⟩
  rw [hadmits] at hadmitted
  cases hadmitted
  exact ⟨rfl, hasChunk_putChunk _ owner address sealed⟩

/-- A full account: what it has marked goes, and the bound is asked again. -/
theorem storeChunk_full (address : ChunkId) (hpledge : h.wouldExceedPledge sealed.length = false)
    (hasked : h.admits caller owner sealed.length m = (h, .error why))
    (hfull : why.accountFull = true) :
    let spared := h.vault.evictMarked owner (why.overage sealed.length) m.unix
    let again := ({ h with vault := spared.1 } : Host K).admits caller owner sealed.length m
    h.storeChunk caller owner address sealed m =
      if spared.2 = 0 then ({ h with vault := spared.1 }, .refused why.text)
      else
        match again with
        | (h, .ok ()) =>
            ({ h with vault := (h.vault.putChunk owner address sealed).1 }, .stored true)
        | (h, .error why) => (h, .refused why.text) := by
  unfold storeChunk
  dsimp only
  rw [hpledge, hasked]
  dsimp only
  rw [hfull]
  rfl

/-- The figures of the refusal are those of the account, and so is what must go. -/
theorem asked_full (hfull : h.Full caller owner sealed.length m)
    (hbits : h.vault.heldBytesFor owner + sealed.length ≤ u64Max) :
    ∃ why, h.admits caller owner sealed.length m = (h, .error why) ∧ why.accountFull = true ∧
      why.overage sealed.length =
        h.vault.heldBytesFor owner + sealed.length - roomEarned
          (h.book.standing owner h.store m.unix).pledged := by
  have hsum : saturatingAdd (h.vault.heldBytesFor owner) sealed.length =
      h.vault.heldBytesFor owner + sealed.length :=
    Nat.min_eq_left hbits
  refine ⟨.full false (h.vault.heldBytesFor owner)
    (roomEarned (h.book.standing owner h.store m.unix).pledged)
    (h.book.standing owner h.store m.unix).pledged (h.book.standing owner h.store m.unix).proved,
      ?_, rfl, ?_⟩
  · unfold admits
    rw [hfull.speaks.admits, hfull.clean]
    simp only [Bool.false_eq_true, if_false]
    rw [hsum, if_pos hfull.past]
  · have hpast := hfull.past
    rw [NotAdmitted.overage, hsum, if_pos (by omega)]

/-- **With the marked chunks gone** the account is below its bound, and only what it would hold on a
promise is asked for. -/
theorem asked_again (hfull : h.Full caller owner sealed.length m)
    (hbits : h.vault.heldBytesFor owner + sealed.length ≤ u64Max) {v : Depot K} {freed : ℕ}
    (hfreed : Depot.Freed owner freed h.vault v)
    (henough : h.vault.heldBytesFor owner + sealed.length -
      roomEarned (h.book.standing owner h.store m.unix).pledged ≤ freed) :
    let earned := roomEarned (h.book.standing owner h.store m.unix).proved
    let mine := h.vault.heldBytesFor owner - freed
    let promised := (mine + sealed.length - earned) - (mine - earned)
    (h.book.admits caller owner sealed.length h.store v h.pledge.bytes m.now m.unix).2 =
      if 0 < promised ∧ ClaimBook.unprovenShare h.pledge.bytes < saturatingAdd
        (h.book.lentThen promised (h.book.lentWithout h.store h.vault owner freed m.unix)
          h.pledge.bytes m.now) promised
      then .error .unprovenFull else .ok () := by
  have hmine : v.heldBytesFor owner = h.vault.heldBytesFor owner - freed := by
    have hown := hfreed.own
    omega
  have hsum : saturatingAdd (h.vault.heldBytesFor owner - freed) sealed.length =
      h.vault.heldBytesFor owner - freed + sealed.length := Nat.min_eq_left (by omega)
  have hbelow : ¬ roomEarned (h.book.standing owner h.store m.unix).pledged <
      h.vault.heldBytesFor owner - freed + sealed.length := by
    have hown := hfreed.own
    omega
  intro earned mine promised
  rw [hfull.speaks.admits, hfull.clean, hmine]
  simp only [Bool.false_eq_true, if_false]
  rw [hsum, if_neg hbelow, ← ClaimBook.lentOnPromise_freed hfreed]
  by_cases hpromised : 0 < promised
  · rw [if_pos hpromised, ClaimBook.lend_eq]
    simp only [hpromised, true_and]
    rfl
  · rw [if_neg hpromised, if_neg fun hand => hpromised hand.1]

/-- A full account trades: what it marked for what it sends, if the promise fits. -/
theorem trade_of_full (hpaired : h.vault.Paired) (htotalled : h.vault.Totalled)
    (hfull : h.Full caller owner sealed.length m)
    (hbits : h.vault.heldBytesFor owner + sealed.length ≤ u64Max) :
    (Loses h.vault (h.storeChunk caller owner address sealed m).1.vault →
      (h.storeChunk caller owner address sealed m).2 = .stored true ∧
        (h.storeChunk caller owner address sealed m).1.vault.hasChunk owner address = true) ↔
      h.PromiseFits caller owner sealed.length m := by
  obtain ⟨why, hasked, hwhy, hneeded⟩ := asked_full hfull hbits
  have hstore := storeChunk_full address hfull.pledge hasked hwhy
  rw [hneeded] at hstore
  set needed := h.vault.heldBytesFor owner + sealed.length - roomEarned
    (h.book.standing owner h.store m.unix).pledged
    with hneededDef
  have hpos : 0 < needed := Nat.sub_pos_of_lt hfull.past
  obtain ⟨hshort, hzero, hsame⟩ | ⟨hroom, taken, hevicted⟩ :=
    Depot.evictMarked_all_or_nothing hpaired htotalled owner m.unix hpos
  · -- too little is marked, and nothing goes
    dsimp only at hstore
    rw [if_pos hzero] at hstore
    rw [hstore]
    exact ⟨fun _ _ henough => absurd henough (Nat.not_le.mpr hshort),
      fun _ hloses => absurd hloses (not_loses_of_same hsame)⟩
  · have hfreed : 0 < (h.vault.evictMarked owner needed m.unix).2 := hpos.trans_le hevicted.enough
    have hloses := loses_of_evicted hevicted hfreed
    have hagain := asked_again hfull hbits hevicted.bytes hevicted.enough
    rw [hroom] at hagain
    dsimp only at hstore hagain
    rw [if_neg (Nat.ne_of_gt hfreed)] at hstore
    have henough : needed ≤ h.vault.spareRoom owner needed m.unix := hroom ▸ hevicted.enough
    rcases hadmits :
      ({ h with vault := (h.vault.evictMarked owner needed m.unix).1 } : Host K).admits caller owner
      sealed.length m with ⟨h₂, answer⟩
    have hvault : h₂.vault = (h.vault.evictMarked owner needed m.unix).1 :=
      congrArg (fun r => (Prod.fst r).vault) hadmits.symm
    have hanswer := (congrArg Prod.snd hadmits).symm.trans hagain
    rw [hadmits] at hstore
    cases answer with
    | ok =>
      rw [hstore]
      refine iff_of_true (fun _ => ⟨rfl, hasChunk_putChunk _ owner address sealed⟩) fun _ _
        hpromised => ?_
      refine Nat.not_lt.mp fun hover => ?_
      rw [if_pos ⟨hpromised, hover⟩] at hanswer
      cases hanswer
    | error why' =>
      rw [hstore]
      refine iff_of_false (fun htrade => ?_) fun hfits => ?_
      · rw [hvault] at htrade
        cases (htrade hloses).1
      · split_ifs at hanswer with hover
        exact absurd (hfits hfull henough hover.1) (Nat.not_le.mpr hover.2)

/-- **No copy goes for nothing exactly where the promise fits.** -/
theorem trade_of_paired (hpaired : h.Full caller owner sealed.length m → h.vault.Paired)
    (htotalled : h.vault.Totalled) :
    (Loses h.vault (h.storeChunk caller owner address sealed m).1.vault →
      (h.storeChunk caller owner address sealed m).2 = .stored true ∧
        (h.storeChunk caller owner address sealed m).1.vault.hasChunk owner address = true) ↔
      h.PromiseFits caller owner sealed.length m := by
  cases hpledge : h.wouldExceedPledge sealed.length with
  | true =>
    have hkept : (h.storeChunk caller owner address sealed m).1 = h := by
      unfold storeChunk
      dsimp only
      rw [hpledge]
      rfl
    rw [hkept]
    refine ⟨fun _ hfits => ?_, fun _ hloses => absurd hloses (not_loses_of_same (.refl _))⟩
    rw [hfits.pledge] at hpledge
    cases hpledge
  | false =>
    -- no sum is cut off at what 64 bits hold
    have hbits : h.vault.heldBytesFor owner + sealed.length ≤ u64Max := by
      have hfits := of_decide_eq_false hpledge
      have hpart := heldBytesFor_le htotalled owner
      have hmax := h.pledge.fits
      omega
    have hsum : saturatingAdd (h.vault.heldBytesFor owner) sealed.length =
        h.vault.heldBytesFor owner + sealed.length := Nat.min_eq_left hbits
    by_cases hfull : h.Full caller owner sealed.length m
    · exact trade_of_full (hpaired hfull) htotalled hfull hbits
    · -- the bound is not asked again
      refine iff_of_true (fun hloses => ?_) fun hfull' => absurd hfull' hfull
      cases hasked : (h.admits caller owner sealed.length m).2 with
      | ok => exact storeChunk_admitted hpledge hasked
      | error why =>
        cases hwhy : why.accountFull with
        | false =>
          rw [storeChunk_refused hpledge hasked hwhy] at hloses
          exact absurd hloses (not_loses_of_same (.refl _))
        | true =>
          have hspeaks := ClaimBook.speaks_of_accountFull hasked hwhy
          have hpast := hspeaks.full_iff.mp ⟨why, hasked, hwhy⟩
          rw [hsum] at hpast
          exact absurd ⟨hpledge, hspeaks, hpast.1, hpast.2⟩ hfull

/-- **No copy goes for nothing exactly where the promise fits**: whatever became of its vault, a
host that takes marked chunks of an account out stores the chunk that was sent for them. A call that
does not come to look for marks asks nothing of the marks' history. -/
theorem trade_iff [SealedLength K] {moves : List (VaultWorld.Move K)}
    (hvault : h.vault = (VaultWorld.start.run moves).vault)
    (hrunning : (VaultWorld.start.run moves : VaultWorld K).running = true) (caller : DeviceId)
    (owner : UserId) (address : ChunkId) (sealed : Bytes) (m : Moment)
    (hwhole : h.Full caller owner sealed.length m →
      (VaultWorld.start : VaultWorld K).Always VaultWorld.MarksWhole moves) :
    (Loses h.vault (h.storeChunk caller owner address sealed m).1.vault →
      (h.storeChunk caller owner address sealed m).2 = .stored true ∧
        (h.storeChunk caller owner address sealed m).1.vault.hasChunk owner address = true) ↔
      h.PromiseFits caller owner sealed.length m := by
  refine trade_of_paired (fun hfull => ?_) ?_
  · rw [hvault]
    exact VaultWorld.paired_of_whole (hwhole hfull)
  · rw [hvault]
    exact VaultWorld.totalled_of_running hrunning

/-- What a store was answered. -/
def answered : Response K → Option (Except String Bool)
  | .stored accepted => some (.ok accepted)
  | .refused why => some (.error why)
  | _ => none

theorem eq_stored_of_answered {r : Response K} {accepted : Bool}
    (h : answered r = some (.ok accepted)) :
    r = .stored accepted := by
  cases r <;> cases h
  rfl

/-- Device 5 borrows the share and marks what it stored. -/
def spoken : Host symbolic :=
  lender.run numberedClaims noHashes (borrows 5 ++ [.request (.mayEvict 105 [8]) 5 moment])

/-- The vault it comes to, by the calls on it. -/
def spokenMoves : List (VaultWorld.Move symbolic) :=
  [.opens, .runs (.putChunk 105 8 [1, 2, 3]), .runs (.markEvictable 105 [8] 0)]

/-- Two seconds on, when the total is counted again. -/
def later : Moment := { moment with now := 2000000000 }

theorem trade_iff_later :
    let h : Host symbolic := { spoken with vault := (VaultWorld.start.run spokenMoves).vault }
    Loses h.vault (h.storeChunk 5 105 9 [4, 5, 6] later).1.vault ∧ h.PromiseFits 5 105 3 later := by
  have hwhole : (VaultWorld.start : VaultWorld symbolic).Always VaultWorld.MarksWhole spokenMoves :=
    ⟨fun _ _ h => (nomatch h), fun _ _ h => (nomatch h), fun _ _ h => (nomatch h), trivial⟩
  refine ⟨⟨Depot.chunkKey 105 8, by decide +kernel, by decide +kernel⟩, ?_⟩
  exact (trade_iff rfl (by decide +kernel) 5 105 9 [4, 5, 6] later fun _ => hwhole).mp fun _ =>
    ⟨eq_stored_of_answered (by decide +kernel), by decide +kernel⟩

/-- At the moment it has borrowed the share, a device that sends another chunk for one it marked
loses the one and is refused the other. -/
theorem evicted_in_vain :
    (spoken.vault.chunks[Depot.chunkKey 105 8]?).isSome = true ∧
      spoken.vault.evictable[Depot.chunkKey 105 8]? = some 0 ∧
      (spoken.storeChunk 5 105 9 [4, 5, 6] moment).1.vault.chunks[Depot.chunkKey 105 8]? = none ∧
      answered (spoken.storeChunk 5 105 9 [4, 5, 6] moment).2 =
        some (.error NotAdmitted.unprovenFull.text) ∧
      (spoken.storeChunk 5 105 9 [4, 5, 6] moment).1.vault.hasChunk 105 9 = false := by
  decide +kernel

end Host

end Itsanas
