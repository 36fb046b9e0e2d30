/-
# The address book, and where a machine is dialled

What goes into the book of `Contact.lean` goes through `insert`, which renews an address that is
known and pushes a new one, at most four to a device (`insert_cases`). The book stays in shape:
so many devices, so many addresses of each, none of them twice (`Shaped`).

A read is meant to make its addresses dialled. It does while there is place for them (`HasPlace`),
and they stay while no relayed row pushes them out (`PushedOut`); a device all of whose four
addresses once worked is not dialled where the coordinator says it is now
(`moved_not_dialled`).
-/
import Itsanas.Lib.Capped
import Itsanas.Contact

namespace Itsanas
namespace Contact

variable {S : Seals}

/-! ### The addresses of a device -/

abbrev Book (S : Seals) : Type := Table DeviceId (List (Candidate S))

/-- The addresses held for a device. -/
def held (book : Book S) (device : DeviceId) : List (Candidate S) := book[device]?.getD []

@[simp] theorem held_insert_self (book : Book S) (device : DeviceId) (l : List (Candidate S)) :
    held (book.insert device l) device = l := by
  rw [held, Table.getElem?_insert_self', Option.getD_some]

variable {device other : DeviceId}

theorem held_insert_ne (book : Book S) (l : List (Candidate S)) (h : device ≠ other) :
    held (book.insert device l) other = held book other := by
  rw [held, Table.getElem?_insert_ne book l h, held]

variable {l : List (Candidate S)} {device : DeviceId} {book : Book S}

theorem held_of_some (h : book[device]? = some l) :
    held book device = l := by
  rw [held, h, Option.getD_some]

/-- The addresses held for a device are few, and none is there twice. -/
structure Row (l : List (Candidate S)) : Prop where
  few : l.length ≤ maxAddresses
  distinct : (l.map Candidate.address).Nodup

/-- The shape of a book. -/
structure Shaped (book : Book S) : Prop where
  devices : book.size ≤ maxDevices
  row : ∀ device, Row (held book device)

theorem Row.nil : Row ([] : List (Candidate S)) := ⟨Nat.zero_le _, List.nodup_nil⟩

/-- The candidates at `address`, changed. -/
def changeAt (address : Str) (f : Candidate S → Candidate S) (candidate : Candidate S) : Candidate S :=
  if candidate.address = address then f candidate else candidate

variable {address : Str} {f : Candidate S → Candidate S}

theorem amend_eq_map
    (h : (l.map Candidate.address).Nodup) : amend address f l = l.map (changeAt address f) := by
  induction l with
  | nil => rfl
  | cons candidate rest ih =>
    obtain ⟨hfirst, hrest⟩ := List.nodup_cons.mp h
    rw [amend, List.map_cons, changeAt]
    split_ifs with haddress
    · -- No other candidate is at this address.
      have hothers : rest.map (changeAt address f) = rest.map id := by
        refine List.map_congr_left fun other hother => ?_
        rw [changeAt, if_neg, id]
        exact fun heq => hfirst (haddress.trans heq.symm ▸ List.mem_map_of_mem hother)
      rw [hothers, List.map_id]
    · rw [ih hrest]

theorem map_address_changeAt (hf : ∀ candidate, (f candidate).address = candidate.address) :
    (l.map (changeAt address f)).map Candidate.address = l.map Candidate.address := by
  rw [List.map_map]
  refine List.map_congr_left fun candidate _ => ?_
  rw [Function.comp_apply, changeAt]
  split_ifs
  · exact hf candidate
  · rfl

theorem Row.changeAt (h : Row l)
    (hf : ∀ candidate, (f candidate).address = candidate.address) :
    Row (l.map (Contact.changeAt address f)) :=
  ⟨by rw [List.length_map]; exact h.few, by rw [map_address_changeAt hf]; exact h.distinct⟩

variable {c : Contact S} {presences : List (SignedPresence S)} {claimed : List (ClaimedPresence S)}

section
variable (isPrivateAddress : Str → Bool)

instance totalBestFirst : Std.Total (bestFirst (S := S) isPrivateAddress) where
  total a b := by
    unfold bestFirst
    rcases lt_trichotomy (a.worked.elim 0 (· + 1)) (b.worked.elim 0 (· + 1)) with h | h | h
    · exact .inr (.inl h)
    · cases hb : isPrivateAddress b.address with
      | false => exact .inr (.inr ⟨h, by simp⟩)
      | true => exact .inl (.inr ⟨h.symm, fun _ => rfl⟩)
    · exact .inl (.inl h)

instance transBestFirst : IsTrans (Candidate S) (bestFirst isPrivateAddress) where
  trans a b c hab hbc := by
    unfold bestFirst at *
    rcases hab with hab | ⟨hab, hab'⟩ <;> rcases hbc with hbc | ⟨hbc, hbc'⟩
    · exact .inl (hbc.trans hab)
    · exact .inl (hbc.trans_lt hab)
    · exact .inl (hbc.trans_eq hab)
    · exact .inr ⟨hbc.trans hab, fun h => hbc' (hab' h)⟩

theorem push_eq (l : List (Candidate S)) (candidate : Candidate S) :
    push isPrivateAddress l candidate =
      Capped.push (bestFirst isPrivateAddress) maxAddresses l candidate := rfl

/-- A candidate at an address that was not known. -/
def newcomer (address : Str) (presence : Option (SignedPresence S)) (claim : Option (SignedClaim S))
    (worked : Option ℕ) : Candidate S :=
  { address := address, worked := worked, presence := presence, claim := presence.bind fun _ => claim,
    proven := false }

/-- A known candidate, with a later presence or claim. -/
def renew (presence : Option (SignedPresence S)) (claim : Option (SignedClaim S))
    (known : Candidate S) : Candidate S :=
  ((known.renewPresence presence).1.renewClaim claim).1

/-- Whether anything of it is later. -/
def renews (presence : Option (SignedPresence S)) (claim : Option (SignedClaim S))
    (known : Candidate S) : Bool :=
  (known.renewPresence presence).2 || ((known.renewPresence presence).1.renewClaim claim).2

theorem renewPresence_address (known : Candidate S) (presence : Option (SignedPresence S)) :
    (known.renewPresence presence).1.address = known.address := by
  unfold Candidate.renewPresence
  split
  · split_ifs <;> rfl
  · rfl

theorem renewClaim_address (known : Candidate S) (claim : Option (SignedClaim S)) :
    (known.renewClaim claim).1.address = known.address := by
  unfold Candidate.renewClaim
  split
  · split_ifs <;> rfl
  · rfl

theorem renew_address (presence : Option (SignedPresence S)) (claim : Option (SignedClaim S))
    (known : Candidate S) : (renew presence claim known).address = known.address :=
  (renewClaim_address _ claim).trans (renewPresence_address known presence)

theorem Row.push (h : Row l) {candidate : Candidate S}
    (hnew : candidate.address ∉ l.map Candidate.address) :
    Row (push isPrivateAddress l candidate) := by
  refine ⟨Capped.length_push_le h.few, Capped.nodup_map_push _ ?_⟩
  rw [List.map_append, List.map_singleton]
  exact List.nodup_append.mpr ⟨h.distinct, List.nodup_singleton _, fun a ha b hb => by
    rintro rfl
    exact hnew (List.mem_singleton.mp hb ▸ ha)⟩

/-! ### The one door -/

/-- **What goes through the door.** The book is full and does not know the device; or it knows the
address, and renews it; or the address is new, and pushed. -/
theorem insert_cases (h : Shaped c.book) (device : DeviceId) (address : Str)
    (presence : Option (SignedPresence S)) (claim : Option (SignedClaim S)) (worked : Option ℕ) :
    let c' := c.insert isPrivateAddress device address presence claim worked
    (c.book[device]? = none ∧ maxDevices ≤ c.book.size ∧ c' = c) ∨
      ((device ∈ c.book ∨ c.book.size < maxDevices) ∧
        address ∈ (held c.book device).map Candidate.address ∧
        c'.book = c.book.insert device
          ((held c.book device).map (changeAt address (renew presence claim))) ∧
        ∃ known ∈ held c.book device, known.address = address ∧
          c'.changed = (c.changed || renews presence claim known)) ∨
      ((device ∈ c.book ∨ c.book.size < maxDevices) ∧
        address ∉ (held c.book device).map Candidate.address ∧
        c'.book = c.book.insert device
          (push isPrivateAddress (held c.book device) (newcomer address presence claim worked)) ∧
        c'.changed = true) := by
  intro c'
  by_cases hfull : c.book[device]?.isNone ∧ maxDevices ≤ c.book.size
  · exact .inl ⟨by simpa using hfull.1, hfull.2, if_pos hfull⟩
  · have hroom : device ∈ c.book ∨ c.book.size < maxDevices := by
      rw [not_and_or, not_le] at hfull
      refine hfull.imp_left fun hsome => ?_
      rw [Std.ExtTreeMap.mem_iff_isSome_getElem?]
      cases hrow : c.book[device]? <;> simp_all
    have hc' : c' = _ := if_neg hfull
    cases hfind : (held c.book device).find? fun known => known.address = address with
    | some known =>
      have hmem : known ∈ held c.book device := List.mem_of_find?_eq_some hfind
      have haddress : known.address = address := by simpa using List.find?_some hfind
      have hunique : (held c.book device).map (changeAt address fun _ => renew presence claim known)
          = (held c.book device).map (changeAt address (renew presence claim)) := by
        refine List.map_congr_left fun other hother => ?_
        unfold changeAt
        split_ifs with hat
        · have heq : other = known :=
            List.inj_on_of_nodup_map (h.row device).distinct hother hmem (hat.trans haddress.symm)
          rw [heq]
        · rfl
      refine .inr (.inl ⟨hroom, haddress ▸ List.mem_map_of_mem hmem, ?_, known, hmem, haddress, ?_⟩)
      · rw [← hunique, ← amend_eq_map (h.row device).distinct, hc']
        simp only [held] at hfind
        simp only [hfind]
        rfl
      · rw [hc']
        simp only [held] at hfind
        simp only [hfind]
        rw [renews, Bool.or_assoc]
    | none =>
      refine .inr (.inr ⟨hroom, ?_, ?_, ?_⟩)
      · simpa using hfind
      · rw [hc']
        simp only [held] at hfind
        simp only [hfind]
        rfl
      · rw [hc']
        simp only [held] at hfind
        simp only [hfind]

theorem size_insert_le_of_room
    (hsize : book.size ≤ maxDevices) (hroom : device ∈ book ∨ book.size < maxDevices) :
    (book.insert device l).size ≤ maxDevices := by
  rw [Std.ExtTreeMap.size_insert]
  split_ifs with hmem
  · exact hsize
  · exact hroom.resolve_left hmem

theorem Shaped.insertRow (h : Shaped book)
    (hrow : Row l) (hroom : device ∈ book ∨ book.size < maxDevices) :
    Shaped (book.insert device l) := by
  refine ⟨size_insert_le_of_room h.devices hroom, fun other => ?_⟩
  by_cases hne : device = other
  · rw [← hne, held_insert_self]
    exact hrow
  · rw [held_insert_ne book l hne]
    exact h.row other

theorem Shaped.insert (h : Shaped c.book) (device : DeviceId) (address : Str)
    (presence : Option (SignedPresence S)) (claim : Option (SignedClaim S)) (worked : Option ℕ) :
    Shaped (c.insert isPrivateAddress device address presence claim worked).book := by
  rcases insert_cases isPrivateAddress h device address presence claim worked with
    ⟨-, -, hsame⟩ | ⟨hroom, -, hbook, -⟩ | ⟨hroom, hnew, hbook, -⟩
  · rw [hsame]
    exact h
  · rw [hbook]
    exact h.insertRow ((h.row device).changeAt (renew_address presence claim)) hroom
  · rw [hbook]
    exact h.insertRow ((h.row device).push isPrivateAddress hnew) hroom

/-- What goes through the door is about one device. -/
theorem insert_held_ne (h : Shaped c.book) (hne : device ≠ other)
    (address : Str) (presence : Option (SignedPresence S)) (claim : Option (SignedClaim S))
    (worked : Option ℕ) :
    held (c.insert isPrivateAddress device address presence claim worked).book other =
      held c.book other := by
  rcases insert_cases isPrivateAddress h device address presence claim worked with
    ⟨-, -, hsame⟩ | ⟨-, -, hbook, -⟩ | ⟨-, -, hbook, -⟩
  · rw [hsame]
  · rw [hbook, held_insert_ne _ _ hne]
  · rw [hbook, held_insert_ne _ _ hne]

theorem mem_insert (h : Shaped c.book)
    {presence : Option (SignedPresence S)} {claim : Option (SignedClaim S)} {worked : Option ℕ}
    (hmem : other ∈ (c.insert isPrivateAddress device address presence claim worked).book) :
    other = device ∨ other ∈ c.book := by
  rcases insert_cases isPrivateAddress h device address presence claim worked with
    ⟨-, -, hsame⟩ | ⟨-, -, hbook, -⟩ | ⟨-, -, hbook, -⟩
  · exact .inr (hsame ▸ hmem)
  · rw [hbook, Std.ExtTreeMap.mem_insert] at hmem
    exact hmem.imp_left fun heq => (Std.LawfulEqCmp.eq_of_compare heq).symm
  · rw [hbook, Std.ExtTreeMap.mem_insert] at hmem
    exact hmem.imp_left fun heq => (Std.LawfulEqCmp.eq_of_compare heq).symm

/-! ### The other operations -/

theorem held_keepListed (c : Contact S) (found : List (DeviceId × Str)) (device : DeviceId) :
    held (c.keepListed found).book device =
      if device ∈ found.map Prod.fst then held c.book device else [] := by
  have hrow : (c.keepListed found).book[device]?
      = if device ∈ found.map Prod.fst then c.book[device]? else none := by
    simpa only [keepListed, decide_eq_true_eq] using
      Table.getElem?_filter_keys c.book (fun device => device ∈ found.map Prod.fst) device
  rw [held, hrow]
  split_ifs
  · rfl
  · rfl

theorem Shaped.keepListed (h : Shaped c.book) (found : List (DeviceId × Str)) :
    Shaped (c.keepListed found).book := by
  refine ⟨Std.ExtTreeMap.size_filter_le_size.trans h.devices, fun device => ?_⟩
  rw [held_keepListed]
  split_ifs
  · exact h.row device
  · exact Row.nil

theorem Shaped.insertFound (h : Shaped c.book) (presences : List (SignedPresence S))
    (claimed : List (ClaimedPresence S)) (row : DeviceId × Str) :
    Shaped (Contact.insertFound isPrivateAddress presences claimed c row).book :=
  h.insert isPrivateAddress row.1 row.2 _ _ none

theorem insertFound_held_ne (h : Shaped c.book) (presences : List (SignedPresence S))
    (claimed : List (ClaimedPresence S)) {row : DeviceId × Str} (hne : row.1 ≠ device) :
    held (insertFound isPrivateAddress presences claimed c row).book device = held c.book device :=
  insert_held_ne isPrivateAddress h hne row.2 _ _ none

theorem fallBack_book (c : Contact S) (now : ℕ) : (c.fallBack now).book = c.book := by
  unfold fallBack
  split_ifs <;> rfl

/-- The contact whose devices that are not listed are dropped, before the listed addresses go in. -/
def listedOnly (c : Contact S) (found : List (DeviceId × Str)) (now : ℕ) : Contact S :=
  let answered := { c with readAt := some now, missed := false }
  (if c.hasNews found then answered.fallBack now else answered).keepListed found

theorem read_eq (c : Contact S) (found : List (DeviceId × Str))
    (presences : List (SignedPresence S)) (claimed : List (ClaimedPresence S)) (now : ℕ) :
    c.read isPrivateAddress found presences claimed now
      = found.foldl (insertFound isPrivateAddress presences claimed) (c.listedOnly found now) := rfl

theorem listedOnly_book (c : Contact S) (found : List (DeviceId × Str)) (now : ℕ) :
    (c.listedOnly found now).book = (c.keepListed found).book := by
  unfold listedOnly keepListed
  dsimp only
  split_ifs
  · rw [fallBack_book]
  · rfl

theorem held_listedOnly (c : Contact S) (found : List (DeviceId × Str)) (now : ℕ) (device : DeviceId) :
    held (c.listedOnly found now).book device =
      if device ∈ found.map Prod.fst then held c.book device else [] := by
  rw [listedOnly_book, held_keepListed]

theorem Shaped.listedOnly (h : Shaped c.book) (found : List (DeviceId × Str)) (now : ℕ) :
    Shaped (c.listedOnly found now).book := by
  rw [listedOnly_book]
  exact h.keepListed found

/-- To show what holds after a read, show it before the listed addresses go in, and for each. -/
theorem read_induct {P : Contact S → Prop} {found : List (DeviceId × Str)}
    {now : ℕ} (h : Shaped c.book) (hstart : P (c.listedOnly found now))
    (hinsert : ∀ c row, Shaped c.book → P c →
      P (Contact.insertFound isPrivateAddress presences claimed c row)) :
    P (c.read isPrivateAddress found presences claimed now) := by
  have hfold : ∀ (rows : List (DeviceId × Str)) (c : Contact S), Shaped c.book → P c →
      P (rows.foldl (Contact.insertFound isPrivateAddress presences claimed) c) := by
    intro rows
    induction rows with
    | nil => exact fun _ _ hp => hp
    | cons row rows ih =>
      intro c h hp
      exact ih _ (h.insertFound isPrivateAddress presences claimed row) (hinsert c row h hp)
  rw [read_eq]
  exact hfold found _ (h.listedOnly found now) hstart

theorem Shaped.read (h : Shaped c.book) (found : List (DeviceId × Str))
    (presences : List (SignedPresence S)) (claimed : List (ClaimedPresence S)) (now : ℕ) :
    Shaped (c.read isPrivateAddress found presences claimed now).book :=
  read_induct (P := fun c => Shaped c.book) isPrivateAddress h (h.listedOnly found now)
    fun _ row h _ => h.insertFound isPrivateAddress presences claimed row

/-- Whether a relayed row is taken in. -/
def Takes (c : Contact S) (owner : UserId) (me : DeviceId) (now : ℕ)
    (row : ClaimedPresence S) : Prop :=
  row.presence.presence.device ≠ me ∧ (row.verifyFor owner).isOk ∧
    row.presence.presence.atUnix ≤ saturatingAdd now maxClockSkew ∧
    row.presence.presence.device ∈ c.book ∧
    fresh (held c.book row.presence.presence.device) row (saturatingAdd now maxClockSkew)

instance decidableTakes (c : Contact S) (owner : UserId) (me : DeviceId) (now : ℕ)
    (row : ClaimedPresence S) :
    Decidable (Takes c owner me now row) :=
  inferInstanceAs (Decidable (_ ∧ _ ∧ _ ∧ _ ∧ _))

/-- A row that is taken in goes through the door, and no other changes anything. -/
theorem relayRow_eq (owner : UserId) (me : DeviceId) (now : ℕ) (state : Contact S × Relayed)
    (row : ClaimedPresence S) :
    (relayRow isPrivateAddress owner me now state (some row)).1 =
      if Takes state.1 owner me now row then
        state.1.insert isPrivateAddress row.presence.presence.device row.presence.presence.address
          (some row.presence) (some row.claim) none
      else state.1 := by
  obtain ⟨c, outcome⟩ := state
  rw [relayRow]
  dsimp only
  by_cases hme : row.presence.presence.device = me
  · rw [if_pos hme, if_neg (fun h : Takes c owner me now row => h.1 hme)]
  rw [if_neg hme]
  by_cases hbad : (!(row.verifyFor owner).isOk ||
      decide (saturatingAdd now maxClockSkew < row.presence.presence.atUnix)) = true
  · rw [if_pos hbad, if_neg]
    rintro ⟨-, hok, hdate, -⟩
    simp [hok, hdate.not_gt] at hbad
  rw [if_neg hbad]
  have hgood : (row.verifyFor owner).isOk ∧ row.presence.presence.atUnix ≤
      saturatingAdd now maxClockSkew := by
    simpa using hbad
  cases hrow : c.book[row.presence.presence.device]? with
  | none =>
    rw [if_neg]
    rintro ⟨-, -, -, hmem, -⟩
    rw [Std.ExtTreeMap.mem_iff_isSome_getElem?, hrow] at hmem
    exact absurd hmem (by simp)
  | some l =>
    have hheld : held c.book row.presence.presence.device = l := held_of_some hrow
    have hmem : row.presence.presence.device ∈ c.book := by
      rw [Std.ExtTreeMap.mem_iff_isSome_getElem?, hrow]
      rfl
    by_cases hfresh : fresh l row (saturatingAdd now maxClockSkew) = true
    · rw [if_pos ⟨hme, hgood.1, hgood.2, hmem, hheld ▸ hfresh⟩]
      simp only [hfresh, if_true]
    · rw [if_neg (fun h : Takes c owner me now row => hfresh (hheld ▸ h.2.2.2.2))]
      simp only [hfresh]
      rfl

theorem relayed_append (c : Contact S) (earlier : List (Option (ClaimedPresence S)))
    (row : Option (ClaimedPresence S)) (owner : UserId) (me : DeviceId) (now : ℕ) :
    (c.relayed isPrivateAddress (earlier ++ [row]) owner me now).1
      = (relayRow isPrivateAddress owner me now
        (c.relayed isPrivateAddress earlier owner me now) row).1 := by
  rw [relayed, List.foldl_append, List.foldl_cons, List.foldl_nil, relayed]

/-- To show what holds after rows were relayed, show it before, and for each row that is taken
in. -/
theorem relayed_induct {P : Contact S → Prop} {owner : UserId} {me : DeviceId} {now : ℕ}
    (h : Shaped c.book) (hstart : P c)
    (hinsert : ∀ c row, Shaped c.book → Takes c owner me now row → P c →
      P (c.insert isPrivateAddress row.presence.presence.device row.presence.presence.address
        (some row.presence)
        (some row.claim) none)) (rows : List (Option (ClaimedPresence S))) :
    Shaped (c.relayed isPrivateAddress rows owner me now).1.book ∧
      P (c.relayed isPrivateAddress rows owner me now).1 := by
  induction rows using List.reverseRecOn with
  | nil => exact ⟨h, hstart⟩
  | append_singleton earlier last ih =>
    rw [relayed_append]
    cases last with
    | none => exact ih
    | some row =>
      rw [relayRow_eq]
      split_ifs with htakes
      · exact ⟨ih.1.insert isPrivateAddress _ _ _ _ _, hinsert _ row ih.1 htakes ih.2⟩
      · exact ih

theorem Shaped.relayed (h : Shaped c.book) (owner : UserId) (me : DeviceId) (now : ℕ)
    (rows : List (Option (ClaimedPresence S))) :
    Shaped (c.relayed isPrivateAddress rows owner me now).1.book :=
  (relayed_induct (P := fun _ => True) isPrivateAddress h trivial (fun _ _ _ _ _ => trivial) rows).1

end

/-- A success changes nothing of the book but a mark. -/
theorem worked_cases (h : Shaped c.book) (device : DeviceId) (address : Str) (nowUnix : ℕ) :
    ((c.worked device address nowUnix).book = c.book ∧ (c.worked device address nowUnix).changed =
      c.changed) ∨
      ∃ at', device ∈ c.book ∧ (c.worked device address nowUnix).book = c.book.insert device
          ((held c.book device).map
            (changeAt address fun k => { k with worked := some at', proven := true })) ∧
        (c.worked device address nowUnix).changed = true := by
  unfold worked
  dsimp only
  cases hrow : c.book[device]? with
  | none => exact .inl ⟨rfl, rfl⟩
  | some l =>
    have hheld : held c.book device = l := held_of_some hrow
    dsimp only
    split_ifs
    · refine .inr ⟨((c.book.toList.flatMap Prod.snd).filterMap Candidate.worked).max?.elim nowUnix
        fun latest => max nowUnix (saturatingAdd latest 1), ?_, ?_, rfl⟩
      · rw [Std.ExtTreeMap.mem_iff_isSome_getElem?, hrow]
        rfl
      · dsimp only
        rw [amend_eq_map (hheld ▸ (h.row device).distinct), hheld]
    · exact .inl ⟨rfl, rfl⟩

/-- A failure changes less. -/
theorem failed_cases (h : Shaped c.book) (device : DeviceId) (address : Str) (now : ℕ) :
    (c.failed device address now).changed = c.changed ∧
      ((c.failed device address now).book = c.book ∨
        device ∈ c.book ∧ (c.failed device address now).book = c.book.insert device
          ((held c.book device).map (changeAt address fun k => { k with proven := false }))) := by
  unfold failed
  cases hrow : c.book[device]? with
  | none => exact ⟨rfl, .inl rfl⟩
  | some l =>
    have hheld : held c.book device = l := held_of_some hrow
    dsimp only
    split_ifs
    · refine ⟨rfl, .inr ⟨?_, ?_⟩⟩
      · rw [Std.ExtTreeMap.mem_iff_isSome_getElem?, hrow]
        rfl
      · dsimp only
        rw [amend_eq_map (hheld ▸ (h.row device).distinct), hheld]
    · exact ⟨rfl, .inl rfl⟩

theorem Shaped.worked (h : Shaped c.book) (device : DeviceId) (address : Str) (nowUnix : ℕ) :
    Shaped (c.worked device address nowUnix).book := by
  rcases worked_cases h device address nowUnix with ⟨hsame, -⟩ | ⟨at', hmem, hbook, -⟩
  · rw [hsame]
    exact h
  · rw [hbook]
    exact h.insertRow ((h.row device).changeAt fun _ => rfl) (.inl hmem)

theorem Shaped.failed (h : Shaped c.book) (device : DeviceId) (address : Str) (now : ℕ) :
    Shaped (c.failed device address now).book := by
  rcases failed_cases h device address now with ⟨-, hsame | ⟨hmem, hbook⟩⟩
  · rw [hsame]
    exact h
  · rw [hbook]
    exact h.insertRow ((h.row device).changeAt fun _ => rfl) (.inl hmem)

theorem asked_book (c : Contact S) (due : Due) (now : ℕ) : (c.asked due now).book = c.book := by
  unfold asked
  split_ifs <;> rfl

theorem roundReached_book (c : Contact S) (reached : List DeviceId) (now : ℕ) :
    (c.roundReached reached now).book = c.book := by
  unfold roundReached
  dsimp only
  split_ifs
  · exact fallBack_book c now
  · rfl

section
variable (isPrivateAddress : Str → Bool)

theorem step_ask_book (c : Contact S) (address : Option Str) (dueAt askedAt : ℕ) :
    (c.step isPrivateAddress (.ask address dueAt askedAt)).book = c.book := by
  rw [step]
  split_ifs
  · exact asked_book c _ askedAt
  · rfl

theorem Shaped.step (h : Shaped c.book) (event : Event S) :
    Shaped (c.step isPrivateAddress event).book := by
  cases event with
  | ask address dueAt askedAt => rwa [step_ask_book]
  | published address now => exact h
  | read found presences claimed now => exact h.read isPrivateAddress found presences claimed now
  | signed => exact h
  | reached reached now => rwa [Contact.step, roundReached_book]
  | relayed rows owner me nowUnix => exact h.relayed isPrivateAddress owner me nowUnix rows
  | worked device address nowUnix => exact h.worked device address nowUnix
  | failed device address now => exact h.failed device address now

theorem Shaped.new : Shaped (Contact.new : Contact S).book :=
  ⟨Nat.zero_le _, fun _ => Row.nil⟩

theorem Shaped.foldl_loadEntry (owner : UserId) :
    ∀ (entries : List (BookEntry S)) {c : Contact S}, Shaped c.book →
      Shaped (entries.foldl (loadEntry isPrivateAddress owner) c).book
  | [], _, h => h
  | entry :: entries, c, h => by
    refine Shaped.foldl_loadEntry owner entries ?_
    unfold loadEntry
    split_ifs
    · exact h
    · exact h.insert isPrivateAddress _ _ _ _ _

theorem Shaped.load (file : Option (BookFile S)) (owner : UserId) :
    Shaped (Contact.load isPrivateAddress file owner).book := by
  unfold Contact.load
  split
  · exact Shaped.new
  · split_ifs
    · exact Shaped.new
    · exact Shaped.foldl_loadEntry isPrivateAddress owner _ Shaped.new

/-! ### Where a machine is dialled -/

/-- What is dialled is what is held. -/
theorem mem_candidates (c : Contact S) (device : DeviceId) (address : Str) :
    (device, address) ∈ c.candidates isPrivateAddress ↔
      address ∈ (held c.book device).map Candidate.address := by
  simp only [candidates, sortBestFirst, List.mem_flatMap, List.mem_map, List.mem_insertionSort,
    Prod.mk.injEq]
  constructor
  · rintro ⟨⟨other, l⟩, hmem, candidate, hcandidate, rfl, rfl⟩
    rw [Table.mem_toList] at hmem
    exact ⟨candidate, held_of_some hmem ▸ hcandidate, rfl⟩
  · rintro ⟨candidate, hcandidate, rfl⟩
    cases hrow : c.book[device]? with
    | none => simp [held, hrow] at hcandidate
    | some l =>
      rw [held_of_some hrow] at hcandidate
      exact ⟨(device, l), Table.mem_toList.mpr hrow, candidate, hcandidate, rfl, rfl⟩

/-- Whether an address can be listed and kept: it is held already, or there is a free place, or it
is public and takes the place of a private one that never worked. -/
def HasPlace (l : List (Candidate S)) (address : Str) : Prop :=
  address ∈ l.map Candidate.address ∨ l.length < maxAddresses ∨
    isPrivateAddress address = false ∧ ∃ k ∈ l, k.worked = none ∧ isPrivateAddress k.address = true

/-- Whether one more address pushes out a listed one: four are held, the new one is public, and the
listed one is private, never worked, and is the last to be dialled. -/
def PushedOut (l : List (Candidate S)) (listed address : Str) : Prop :=
  l.length = maxAddresses ∧ address ∉ l.map Candidate.address ∧ isPrivateAddress address = false ∧
    ∃ k, (sortBestFirst isPrivateAddress l).getLast? = some k ∧ k.address = listed ∧ k.worked = none ∧
      isPrivateAddress listed = true

theorem mem_push_newcomer (hrow : Row l)
    (presence : Option (SignedPresence S)) (claim : Option (SignedClaim S))
    (hplace : l.length < maxAddresses ∨
      isPrivateAddress address = false ∧ ∃ k ∈ l, k.worked = none ∧ isPrivateAddress k.address =
        true) :
    address ∈ (push isPrivateAddress l (newcomer address presence claim none)).map
      Candidate.address := by
  refine List.mem_map.mpr ⟨newcomer address presence claim none, ?_, rfl⟩
  rw [push_eq]
  rcases hplace with hfree | ⟨hpublic, k, hk, hnever, hprivate⟩
  · rw [Capped.push_of_lt hfree]
    exact List.mem_append_right _ (List.mem_singleton_self _)
  · refine Capped.mem_push_of_worse hrow.few (by simp) (List.mem_append_left _ hk) ?_
    rintro (hless | ⟨-, himp⟩)
    · simp [newcomer, hnever] at hless
    · exact absurd (himp hprivate) (by simp [newcomer, hpublic])

theorem mem_push_of_not_pushedOut (hrow : Row l) {listed address : Str}
    (presence : Option (SignedPresence S)) (claim : Option (SignedClaim S))
    (hlisted : listed ∈ l.map Candidate.address) (hnew : address ∉ l.map Candidate.address)
    (hnot : ¬PushedOut isPrivateAddress l listed address) :
    listed ∈ (push isPrivateAddress l (newcomer address presence claim none)).map
      Candidate.address := by
  obtain ⟨k, hk, rfl⟩ := List.mem_map.mp hlisted
  by_contra hgone
  have hdropped : k ∉ Capped.push (bestFirst isPrivateAddress) maxAddresses l
      (newcomer address presence claim none) :=
    fun hmem => hgone (List.mem_map_of_mem hmem)
  have hnodup : (l ++ [newcomer address presence claim none]).Nodup := by
    refine List.nodup_append.mpr ⟨hrow.distinct.of_map, List.nodup_singleton _, fun a ha b hb => ?_⟩
    rintro rfl
    exact hnew (List.mem_map.mpr ⟨a, ha, by rw [List.mem_singleton.mp hb]; rfl⟩)
  have hbetter := Capped.better_of_dropped hrow.few hnodup hk hdropped
  have hfull := (Capped.dropped_last hrow.few (List.mem_append_left _ hk) hdropped).1
  have hnever : k.worked = none := by
    cases hworked : k.worked with
    | none => rfl
    | some t => exact absurd (Or.inl (by simp [newcomer, hworked])) hbetter
  have hkinds : isPrivateAddress k.address = true ∧ isPrivateAddress address = false := by
    have : ¬(isPrivateAddress k.address = true → isPrivateAddress address = true) :=
      fun himp => hbetter (.inr ⟨by simp [newcomer, hnever], himp⟩)
    simpa using this
  exact hnot ⟨hfull, hnew, hkinds.2, k, Capped.getLast?_of_dropped hrow.few hnodup hk hdropped, rfl,
    hnever, hkinds.1⟩

/-- A listed address that has a place is held once it went through the door. -/
theorem insert_listed (h : Shaped c.book) (hroom : device ∈ c.book ∨ c.book.size < maxDevices)
    (hplace : HasPlace isPrivateAddress (held c.book device) address)
    (presence : Option (SignedPresence S)) (claim : Option (SignedClaim S)) :
    address ∈ (held (c.insert isPrivateAddress device address presence claim none).book device).map
      Candidate.address := by
  rcases insert_cases isPrivateAddress h device address presence claim none with
    ⟨hnone, hfull, -⟩ | ⟨-, hknown, hbook, -⟩ | ⟨-, hnew, hbook, -⟩
  · rw [Std.ExtTreeMap.mem_iff_isSome_getElem?, hnone] at hroom
    simp at hroom
    omega
  · rw [hbook, held_insert_self, map_address_changeAt (renew_address presence claim)]
    exact hknown
  · rw [hbook, held_insert_self]
    exact mem_push_newcomer isPrivateAddress (h.row device) presence claim (hplace.resolve_left hnew)

/-- An address that is held stays, unless it is pushed out. -/
theorem insert_keeps (h : Shaped c.book) {listed address : Str}
    (hlisted : listed ∈ (held c.book device).map Candidate.address)
    (hnot : ¬PushedOut isPrivateAddress (held c.book device) listed address)
    (presence : Option (SignedPresence S)) (claim : Option (SignedClaim S)) :
    listed ∈ (held (c.insert isPrivateAddress device address presence claim none).book device).map
      Candidate.address := by
  rcases insert_cases isPrivateAddress h device address presence claim none with
    ⟨-, -, hsame⟩ | ⟨-, -, hbook, -⟩ | ⟨-, hnew, hbook, -⟩
  · rw [hsame]
    exact hlisted
  · rw [hbook, held_insert_self, map_address_changeAt (renew_address presence claim)]
    exact hlisted
  · rw [hbook, held_insert_self]
    exact mem_push_of_not_pushedOut isPrivateAddress (h.row device) presence claim hlisted hnew hnot

/-- A device of a list that the book does not hold has a place in it, when the book holds only
devices of the list. -/
theorem room_of_listed {devices : List DeviceId} (hmost : devices.length ≤ maxDevices)
    (hbook : ∀ device ∈ book, device ∈ devices) (hlisted : device ∈ devices) :
    device ∈ book ∨ book.size < maxDevices := by
  by_cases hmem : device ∈ book
  · exact .inl hmem
  · right
    have hnodup : (device :: book.keys).Nodup :=
      List.nodup_cons.mpr ⟨fun h => hmem (Std.ExtTreeMap.mem_keys.mp h), Std.ExtTreeMap.nodup_keys⟩
    have hsub : (device :: book.keys) ⊆ devices := by
      rintro other hother
      rcases List.mem_cons.mp hother with rfl | hother
      · exact hlisted
      · exact hbook other (Std.ExtTreeMap.mem_keys.mp hother)
    have hle : (device :: book.keys).length ≤ devices.length :=
      (List.subperm_of_subset hnodup hsub).length_le
    rw [List.length_cons, Std.ExtTreeMap.length_keys] at hle
    omega

theorem foldl_insertFound_held_ne
    : ∀ (found : List (DeviceId × Str)) {c : Contact S}, Shaped c.book →
      device ∉ found.map Prod.fst →
      held (found.foldl (insertFound isPrivateAddress presences claimed) c).book device =
        held c.book device
  | [], _, _, _ => rfl
  | row :: found, c, h, hnot => by
    obtain ⟨hne, hrest⟩ := not_or.mp (List.mem_cons.not.mp hnot)
    rw [List.foldl_cons, foldl_insertFound_held_ne found (h.insertFound isPrivateAddress _ _ row)
      hrest]
    exact insertFound_held_ne isPrivateAddress h _ _ (Ne.symm hne)

/-- The addresses of a list all go in: each device is listed once, and has a place. -/
theorem foldl_insertFound_listed {devices : List DeviceId} (hmost : devices.length ≤ maxDevices) :
    ∀ (found : List (DeviceId × Str)) {c : Contact S}, Shaped c.book →
      (∀ device ∈ c.book, device ∈ devices) →
      (∀ row ∈ found, row.1 ∈ devices) → (found.map Prod.fst).Nodup →
      (∀ row ∈ found, HasPlace isPrivateAddress (held c.book row.1) row.2) →
      ∀ row ∈ found, row.2 ∈
        (held (found.foldl (insertFound isPrivateAddress presences claimed) c).book row.1).map
          Candidate.address
  | [], _, _, _, _, _, _ => by simp
  | first :: found, c, h, hbook, hdevices, hnodup, hplace => by
    obtain ⟨honce, hnodup⟩ := List.nodup_cons.mp hnodup
    intro row hrow
    rw [List.foldl_cons]
    rcases List.mem_cons.mp hrow with rfl | hrow
    · rw [foldl_insertFound_held_ne isPrivateAddress found (h.insertFound isPrivateAddress _ _ row)
        honce]
      exact insert_listed isPrivateAddress h (room_of_listed hmost hbook (hdevices row (by simp)))
        (hplace row (by simp)) _ _
    · refine foldl_insertFound_listed hmost found (h.insertFound isPrivateAddress _ _ first) ?_
        (fun r hr => hdevices r (by simp [hr])) hnodup ?_ row hrow
      · intro device hdevice
        rcases mem_insert isPrivateAddress h hdevice with rfl | hdevice
        · exact hdevices first (by simp)
        · exact hbook device hdevice
      · intro r hr
        have hne : first.1 ≠ r.1 := fun heq => honce (heq ▸ List.mem_map_of_mem hr)
        rw [insertFound_held_ne isPrivateAddress h _ _ hne]
        exact hplace r (by simp [hr])

/-- The addresses of the last list. -/
def listedBy (listing : List (DeviceId × Str)) : Event S → List (DeviceId × Str)
  | .read found _ _ _ => found
  | _ => listing

/-- A list of at most so many devices, each with one address. -/
def OneEach : Event S → Prop
  | .read found _ _ _ => found.length ≤ maxDevices ∧ (found.map Prod.fst).Nodup
  | _ => True

/-- Whether the step leaves a place to what is listed: to each address that a read lists, and, at
each relayed row that is taken in, to the address its device is listed at. -/
def LeavesPlace (c : Contact S) (listing : List (DeviceId × Str)) : Event S → Prop
  | .read found _ _ _ => ∀ row ∈ found, HasPlace isPrivateAddress (held c.book row.1) row.2
  | .relayed rows owner me now => ∀ earlier row later, rows = earlier ++ some row :: later →
      let before := (c.relayed isPrivateAddress earlier owner me now).1
      Takes before owner me now row → ∀ listed, (row.presence.presence.device, listed) ∈ listing →
        ¬PushedOut isPrivateAddress (held before.book row.presence.presence.device) listed
          row.presence.presence.address
  | _ => True

/-- The listed addresses are held. -/
def Listed (book : Book S) (listing : List (DeviceId × Str)) : Prop :=
  ∀ row ∈ listing, row.2 ∈ (held book row.1).map Candidate.address

variable {listing : List (DeviceId × Str)}

theorem Listed.changeAt (h : Listed book listing)
    (device : DeviceId) (hf : ∀ candidate, (f candidate).address = candidate.address) :
    Listed (book.insert device ((held book device).map (Contact.changeAt address f))) listing := by
  intro row hrow
  by_cases hne : device = row.1
  · rw [hne, held_insert_self, map_address_changeAt hf]
    exact h row hrow
  · rw [held_insert_ne _ _ hne]
    exact h row hrow

theorem Listed.relayed (hshaped : Shaped c.book)
    (h : Listed c.book listing) (owner : UserId) (me : DeviceId) (now : ℕ)
    (rows : List (Option (ClaimedPresence S)))
    (hplace : LeavesPlace isPrivateAddress c listing (.relayed rows owner me now)) :
    Listed (c.relayed isPrivateAddress rows owner me now).1.book listing := by
  induction rows using List.reverseRecOn with
  | nil => exact h
  | append_singleton earlier last ih =>
    have hbefore : Listed (c.relayed isPrivateAddress earlier owner me now).1.book listing :=
      ih fun rows row later heq => hplace rows row (later ++ [last]) (by simp [heq])
    rw [relayed_append]
    cases last with
    | none => exact hbefore
    | some row =>
      rw [relayRow_eq]
      split_ifs with htakes
      · intro at' hat
        have hshaped' := hshaped.relayed isPrivateAddress owner me now earlier
        by_cases hne : row.presence.presence.device = at'.1
        · have hnot := hplace earlier row [] rfl htakes at'.2 (hne ▸ hat)
          rw [← hne]
          exact insert_keeps isPrivateAddress hshaped' (hne ▸ hbefore at' hat) hnot _ _
        · rw [insert_held_ne isPrivateAddress hshaped' hne]
          exact hbefore at' hat
      · exact hbefore

/-- **What is listed stays listed at every step that leaves it a place.** -/
theorem step_listed (hshaped : Shaped c.book)
    (h : Listed c.book listing) (event : Event S) (hone : OneEach event)
    (hplace : LeavesPlace isPrivateAddress c listing event) :
    Listed (c.step isPrivateAddress event).book (listedBy listing event) := by
  cases event with
  | ask address dueAt askedAt => rwa [step_ask_book]
  | published address now => exact h
  | read found presences claimed now =>
    intro row hrow
    rw [step, read_eq]
    have hmost : (found.map Prod.fst).length ≤ maxDevices := by simpa using hone.1
    refine foldl_insertFound_listed isPrivateAddress hmost found (hshaped.listedOnly found now) ?_
      (fun _ => List.mem_map_of_mem) hone.2 ?_ row hrow
    · intro device hdevice
      rw [listedOnly_book, keepListed, Std.ExtTreeMap.mem_filter] at hdevice
      obtain ⟨hmem, hkept⟩ := hdevice
      simpa using hkept
    · intro row hrow
      rw [held_listedOnly, if_pos (List.mem_map_of_mem hrow)]
      exact hplace row hrow
  | signed => exact h
  | reached reached now => rwa [step, roundReached_book]
  | relayed rows owner me nowUnix =>
      exact h.relayed isPrivateAddress hshaped owner me nowUnix rows hplace
  | worked device address nowUnix =>
    rw [step]
    rcases worked_cases hshaped device address nowUnix with ⟨hsame, -⟩ | ⟨at', -, hbook, -⟩
    · rwa [hsame]
    · rw [hbook]
      exact h.changeAt device fun _ => rfl
  | failed device address now =>
    rw [step]
    rcases failed_cases hshaped device address now with ⟨-, hsame | ⟨-, hbook⟩⟩
    · rwa [hsame]
    · rw [hbook]
      exact h.changeAt device fun _ => rfl

/-- Every step of a run leaves a place to what is listed. -/
def PlaceThroughout (c : Contact S) (listing : List (DeviceId × Str)) : List (Event S) → Prop
  | [] => True
  | event :: events => LeavesPlace isPrivateAddress c listing event ∧
      PlaceThroughout (c.step isPrivateAddress event) (listedBy listing event) events

theorem foldl_step_listed :
    ∀ (events : List (Event S)) {c : Contact S} {listing : List (DeviceId × Str)}, Shaped c.book →
      Listed c.book listing → (∀ event ∈ events, OneEach event) →
      PlaceThroughout isPrivateAddress c listing events →
      Listed (events.foldl (step isPrivateAddress) c).book (events.foldl listedBy listing)
  | [], _, _, _, h, _, _ => h
  | event :: events, _, _, hshaped, h, hone, ⟨hplace, hrest⟩ =>
    foldl_step_listed events (hshaped.step isPrivateAddress event)
      (step_listed isPrivateAddress hshaped h event (hone event (by simp)) hplace)
      (fun e he => hone e (by simp [he])) hrest

/-- **A machine is dialled where it is listed**, in every run whose steps leave it a place: each
address of the last list is among those dialled. -/
theorem listed_dialled (file : Option (BookFile S)) (owner : UserId) (events : List (Event S))
    (hone : ∀ event ∈ events, OneEach event)
    (hplace : PlaceThroughout isPrivateAddress (load isPrivateAddress file owner) [] events) :
    ∀ row ∈ events.foldl listedBy [],
      row ∈ (events.foldl (step isPrivateAddress) (load isPrivateAddress file owner)).candidates
        isPrivateAddress := by
  intro row hrow
  rw [mem_candidates]
  exact foldl_step_listed isPrivateAddress events (Shaped.load isPrivateAddress file owner)
    (by simp [Listed])
    hone hplace row hrow

end

/-- A machine that was reached at four addresses, and then moved again. -/
def moves : List (Event oneSeal) :=
  [.read [(1, ['a'])] [] [] 0, .worked 1 ['a'] 1, .read [(1, ['b'])] [] [] 2, .worked 1 ['b'] 3,
    .read [(1, ['c'])] [] [] 4, .worked 1 ['c'] 5, .read [(1, ['d'])] [] [] 6, .worked 1 ['d'] 7,
    .read [(1, ['e'])] [] [] 8]

/-- After three moves the machine is still dialled where it was listed last. -/
theorem listed_dialled_moves :
    PlaceThroughout (fun _ => false) (load (fun _ => false) none 0) [] (moves.take 8) ∧
      (1, ['d']) ∈
        ((moves.take 8).foldl (step fun _ => false) (load (fun _ => false) none 0)).candidates
        fun _ => false := by
  have hone : ∀ event ∈ moves.take 8, OneEach event := by simp [moves, OneEach, maxDevices]
  have hplace : PlaceThroughout (fun _ => false) (load (fun _ => false) none 0) [] (moves.take 8) := by
    refine ⟨?_, trivial, ?_, trivial, ?_, trivial, ?_, trivial, trivial⟩ <;>
      · intro row hrow
        obtain rfl := List.mem_singleton.mp hrow
        exact .inr (.inl (by decide +kernel))
  exact ⟨hplace, listed_dialled (fun _ => false) none 0 (moves.take 8) hone hplace _
    (by decide +kernel)⟩

/-- **The fifth address is not dialled**, though it is the only one the coordinator lists. -/
theorem moved_not_dialled :
    (∀ event ∈ moves, OneEach event) ∧ moves.foldl listedBy [] = [(1, ['e'])] ∧
      (1, ['e']) ∉ (moves.foldl (step fun _ => false) (load (fun _ => false) none 0)).candidates
        fun _ => false :=
  ⟨by simp [moves, OneEach, maxDevices], by decide +kernel, by decide +kernel⟩

end Contact
end Itsanas
