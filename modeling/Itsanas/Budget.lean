/-
# The write budget is honoured

`Store::write_stream` holds a write to the budget chunk by chunk, and `pull_room` is
asked before another device's file is taken in. Fix a budget, set while the files here
came to `localThen` bytes, and let the device write and adopt in any order.

Each turn does one of three things to the bytes here: nothing, no more than a pull was
told there is room for (`Adopts`), or a write that passed `refuse_past` with its last
chunk (`Wrote`). So the ceiling holds after every turn, and as long as nothing is written
the growth since `localThen` fits the room that was free, twice where the folder
shares the store's volume.

A write without a single byte is the exception: no chunk, so `refuse_past` is never
asked. Adoptions are not held to `allowed`, and once they have taken the account past
it an empty file is still accepted, where `check_room` refuses it. The account is
within the budget after every accepted write exactly where no empty stream is written
while the files besides its path are past the budget already.
-/
import Itsanas.Contents

namespace Itsanas

variable {K : Crypto}

/-! ### The bytes here -/

variable {path : Path} {st : Store K} {entry : FileEntry}

namespace Store

/-- The bytes of the files here. -/
def held (st : Store K) : ℕ := st.tree.sizeSum

/-- The cached size is right, and fits. -/
structure Counted (st : Store K) : Prop where
  cached : st.tree.Cached
  fits : st.held ≤ u64Max

theorem localBytes_eq_held (h : st.Counted) : st.localBytes.2 = st.held := by
  show st.tree.countLocalBytes.2 = st.held
  unfold FileTables.countLocalBytes
  cases hbytes : st.tree.localBytes with
  | some total => exact h.cached total hbytes
  | none =>
    show (st.tree.files.toList.map fun r => r.2.size).foldl saturatingAdd 0 = st.held
    rw [FileTables.foldl_saturatingAdd _ 0 (Nat.zero_le _), Nat.zero_add]
    exact min_eq_left h.fits

/-- The files and the budget are as they were, and the books as right. -/
structure Steady (st st' : Store K) : Prop where
  budget : st'.budget = st.budget
  files : st'.tree.files = st.tree.files
  cached : st.Counted → st'.tree.Cached

theorem Steady.refl (st : Store K) : st.Steady st := ⟨rfl, rfl, Counted.cached⟩

theorem Steady.held {st st' : Store K} (h : st.Steady st') : st'.held = st.held := by
  rw [Store.held, FileTables.sizeSum, h.files]
  rfl

theorem Steady.counted {st st' : Store K} (h : st.Steady st') (hc : st.Counted) : st'.Counted :=
  ⟨h.cached hc, h.held ▸ hc.fits⟩

theorem Steady.trans {a b c : Store K} (h : a.Steady b) (k : b.Steady c) : a.Steady c :=
  ⟨k.budget.trans h.budget, k.files.trans h.files, fun hc => k.cached (h.counted hc)⟩

theorem steady_localBytes (st : Store K) : st.Steady st.localBytes.1 := by
  refine ⟨st.sameNode_localBytes.budget, ?_, fun hc => ?_⟩
  · show st.tree.countLocalBytes.1.files = st.tree.files
    unfold FileTables.countLocalBytes
    split <;> rfl
  · exact FileTables.countLocalBytes_cached hc.cached hc.fits

theorem steady_pullRoom (st : Store K) (path : Path) (incoming : ℕ) (replacing : Bool) :
    st.Steady (st.pullRoom path incoming replacing).1 := by
  unfold pullRoom
  cases st.budget with
  | none => exact .refl st
  | some budget => exact st.steady_localBytes

theorem steady_accountFor (st : Store K) (path : Path) : st.Steady (st.accountFor path).1 := by
  unfold accountFor
  cases st.budget with
  | none => exact .refl st
  | some budget => exact st.steady_localBytes

theorem held_putFile (st : Store K) (path : Path) (entry : FileEntry) (now : ℕ) :
    (st.putFile path entry now).held + st.tree.previousSize path = st.held + entry.size := by
  show FileTables.sizeSum (st.tree.putFile path entry now).1 + _ = _
  rw [FileTables.sizeSum, FileTables.files_putFile]
  exact Table.total_insert FileEntry.size st.tree.files path entry

theorem previousSize_le_held (st : Store K) (path : Path) : st.tree.previousSize path ≤ st.held := by
  have h := Table.total_erase FileEntry.size st.tree.files path
  unfold FileTables.previousSize held FileTables.sizeSum
  omega

theorem Counted.putFile (h : st.Counted)
    (hfits : st.held + entry.size ≤ u64Max) (now : ℕ) : (st.putFile path entry now).Counted := by
  have hsum := st.held_putFile path entry now
  have hfits' : (st.putFile path entry now).held ≤ u64Max := by omega
  exact ⟨FileTables.putFile_cached h.cached path entry now hfits', hfits'⟩

end Store

/-! ### What the limits say -/

namespace WriteBudget

/-- The room left, if `incoming` bytes do not fit beside `present`. -/
def pull (b : WriteBudget) (present incoming : ℕ) : Option ℕ :=
  match b.folderCopy with
  | .sameVolume localThen =>
    match b.localCeiling with
    | none => none
    | some ceiling =>
      let room := ceiling - localThen
      let spent := Store.saturatingDouble (present - localThen)
      if room < saturatingAdd spent (Store.saturatingDouble incoming) then some ((room - spent) / 2)
      else none
  | .otherVolume localThen room =>
    let spent := present - localThen
    if room < saturatingAdd spent incoming then some (room - spent)
    else Store.pastCeiling b.localCeiling present incoming
  | .none => Store.pastCeiling b.localCeiling present incoming

/-- `n` bytes are under the ceiling, if there is one. -/
def Under (b : WriteBudget) (n : ℕ) : Prop := ∀ ceiling, b.localCeiling = some ceiling → n ≤ ceiling

/-- With `n` bytes here, what came since the budget was set fits the room there was: twice
where the folder shares the store's volume, once on the folder's own. -/
def Grown (b : WriteBudget) (n : ℕ) : Prop :=
  match b.folderCopy with
  | .none => True
  | .sameVolume localThen =>
    ∀ ceiling, b.localCeiling = some ceiling → 2 * (n - localThen) ≤ ceiling - localThen
  | .otherVolume localThen room => n - localThen ≤ room

/-- The budget was set while `n` bytes were here. -/
def SetAt (b : WriteBudget) (n : ℕ) : Prop :=
  match b.folderCopy with
  | .none => True
  | .sameVolume localThen => localThen = n
  | .otherVolume localThen _ => localThen = n

variable {b : WriteBudget} {n m : ℕ}

theorem Under.mono (h : b.Under n) (hle : m ≤ n) :
    b.Under m := fun ceiling hc => hle.trans (h ceiling hc)

theorem Grown.mono (h : b.Grown n) (hle : m ≤ n) : b.Grown m := by
  unfold Grown at h ⊢
  cases hcopy : b.folderCopy with
  | none => trivial
  | sameVolume localThen =>
    rw [hcopy] at h
    intro ceiling hc
    have := h ceiling hc
    omega
  | otherVolume localThen room =>
    rw [hcopy] at h
    exact (Nat.sub_le_sub_right hle _).trans h

theorem SetAt.grown (h : b.SetAt n) : b.Grown n := by
  unfold SetAt at h
  unfold Grown
  cases hcopy : b.folderCopy with
  | none => trivial
  | sameVolume localThen =>
    rw [hcopy] at h
    intro ceiling _
    rw [show localThen = n from h, Nat.sub_self]
    exact Nat.zero_le _
  | otherVolume localThen room =>
    rw [hcopy] at h
    show n - localThen ≤ room
    rw [show localThen = n from h, Nat.sub_self]
    exact Nat.zero_le _

theorem under_of_pastCeiling {present incoming : ℕ} (hfits : present + incoming ≤ u64Max)
    (h : Store.pastCeiling b.localCeiling present incoming = none) : b.Under (present + incoming) := by
  intro ceiling hc
  unfold Store.pastCeiling at h
  rw [hc] at h
  dsimp only at h
  rw [saturatingAdd, min_eq_left hfits] at h
  by_contra hover
  rw [if_pos (by omega)] at h
  cases h

/-- **What a pull is told there is room for fits**: under the ceiling, and in the room there
was. -/
theorem within_of_pull {present incoming then' : ℕ} (hset : b.SetAt then') (hthen : b.Under then')
    (hfits : 2 * (present + incoming) ≤ u64Max) (h : b.pull present incoming = none) :
    b.Under (present + incoming) ∧ b.Grown (present + incoming) := by
  unfold pull at h
  unfold SetAt at hset
  unfold Grown
  cases hcopy : b.folderCopy with
  | none =>
    rw [hcopy] at h
    exact ⟨under_of_pastCeiling (by omega) h, trivial⟩
  | sameVolume localThen =>
    rw [hcopy] at h hset
    have hgrown : ∀ ceiling, b.localCeiling = some ceiling →
        2 * (present + incoming - localThen) ≤ ceiling - localThen := by
      intro ceiling hc
      rw [hc] at h
      dsimp only at h
      by_contra hover
      rw [if_pos] at h
      · cases h
      · unfold saturatingAdd Store.saturatingDouble
        omega
    refine ⟨fun ceiling hc => ?_, hgrown⟩
    have hle := hgrown ceiling hc
    have hle' : localThen ≤ ceiling := (show localThen = then' from hset) ▸ hthen ceiling hc
    omega
  | otherVolume localThen room =>
    rw [hcopy] at h
    dsimp only at h
    have hroom : ¬room < saturatingAdd (present - localThen) incoming := by
      intro hover
      rw [if_pos hover] at h
      cases h
    rw [if_neg hroom] at h
    refine ⟨under_of_pastCeiling (by omega) h, ?_⟩
    show present + incoming - localThen ≤ room
    unfold saturatingAdd at hroom
    omega

end WriteBudget

theorem Store.pullRoom_eq {b : WriteBudget} (hb : st.budget = some b) (path : Path)
    (incoming : ℕ) (replacing : Bool) :
    (st.pullRoom path incoming replacing).2 =
      b.pull (st.localBytes.2 - (if replacing then st.tree.previousSize path else 0)) incoming := by
  rw [pullRoom, hb]
  rfl

/-! ### Taking in another device's file -/

/-- What a pull of `size` bytes may do to the bytes here: add nothing, or what `pull_room`
found room for. -/
structure Adopts (b : WriteBudget) (size : ℕ) (st st' : Store K) : Prop where
  budget : st'.budget = st.budget
  counted : st'.Counted
  held : st'.held ≤ st.held ∨
    ∃ present ≤ st.held, b.pull present size = none ∧ st'.held ≤ present + size

variable {st' : Store K}

section
variable {b : WriteBudget} {st : Store K}

theorem Store.Steady.adopts (h : st.Steady st') (hc : st.Counted) (size : ℕ) :
    Adopts b size st st' :=
  ⟨h.budget, h.counted hc, Or.inl h.held.le⟩

/-- What a pull leaves is within what it found or within what it was told. -/
theorem Adopts.within {size then' : ℕ} (h : Adopts b size st st')
    (hset : b.SetAt then') (hthen : b.Under then') (hfits : 2 * (st.held + size) ≤ u64Max) :
    (b.Under st.held → b.Under st'.held) ∧ (b.Grown st.held → b.Grown st'.held) := by
  rcases h.held with hle | ⟨present, hpresent, hpull, hle⟩
  · exact ⟨fun hu => hu.mono hle, fun hg => hg.mono hle⟩
  · obtain ⟨hunder, hgrown⟩ := WriteBudget.within_of_pull hset hthen (by omega) hpull
    exact ⟨fun _ => hunder.mono hle, fun _ => hgrown.mono hle⟩

/-- Gathering asks for room, and leaves the files alone. -/
theorem gather_steady (hb : st.budget = some b) (hc : st.Counted) (source : ChunkSource) (n : ℕ)
    (path : Path) (remote : FileEntry) (replacing : Bool) (owner : UserId) :
    let r := gather source st n path remote replacing owner
    st.Steady r.1 ∧ (r.2.2 = .ok none →
      b.pull (st.held - (if replacing then st.tree.previousSize path else 0)) remote.size = none) := by
  have hsteady := st.steady_pullRoom path remote.size replacing
  have hroom := Store.pullRoom_eq hb path remote.size replacing
  rw [Store.localBytes_eq_held hc] at hroom
  unfold gather
  rcases hp : st.pullRoom path remote.size replacing with ⟨st₁, _ | room⟩
  all_goals
    rw [hp] at hsteady hroom
    dsimp only at hsteady hroom ⊢
  · obtain ⟨blobs, losses, hfetched⟩ := fetchMissing_same source owner remote.chunks st₁ n
    have hfetch : st₁.Steady (st₁.withHere blobs losses) := ⟨rfl, rfl, fun h => h.cached⟩
    rcases hf : fetchMissing source owner st₁ n remote.chunks with ⟨st₂, n₂, error | _ | missing⟩
    all_goals
      rw [hf] at hfetched
      dsimp only at hfetched
      subst hfetched
      exact ⟨hsteady.trans hfetch, fun _ => hroom.symm⟩
  · exact ⟨hsteady, fun h => by cases h⟩

/-- An entry is put where room was asked for, beside `present` bytes. -/
theorem adopts_putFile {st₁ : Store K} (hs : st.Steady st₁) (hc : st.Counted)
    {present : ℕ} (hle : present ≤ st.held)
    (hbesides : st.held ≤ present + st.tree.previousSize path)
    (hfits : st.held + entry.size ≤ u64Max) (hroom : b.pull present entry.size = none) (now : ℕ) :
    Adopts b entry.size st (st₁.putFile path entry now) := by
  have hprev : st₁.tree.previousSize path = st.tree.previousSize path := by
    rw [FileTables.previousSize, hs.files]
    rfl
  have hsum := st₁.held_putFile path entry now
  rw [hs.held, hprev] at hsum
  refine ⟨hs.budget, (hs.counted hc).putFile (hs.held ▸ hfits) now, Or.inr ⟨present, hle, hroom, ?_⟩⟩
  omega

theorem adoptUpsert_adopts (hb : st.budget = some b) (hc : st.Counted) (source : ChunkSource)
    (now n : ℕ) (path : Path) (remote : FileEntry) (replacing : Bool) (owner : UserId)
    (hfits : st.held + remote.size ≤ u64Max) :
    Adopts b remote.size st (adoptUpsert source now st n path remote replacing owner).1 := by
  obtain ⟨hs, hroom⟩ := gather_steady hb hc source n path remote replacing owner
  unfold adoptUpsert
  rcases hg : gather source st n path remote replacing owner with ⟨st₁, n₁, error | _ | applied⟩
  all_goals
    rw [hg] at hs hroom
    dsimp only at hs hroom ⊢
  · exact hs.adopts hc _
  · unfold Store.adoptEntry
    cases validate path with
    | error error => exact hs.adopts hc _
    | ok u =>
      refine adopts_putFile hs hc (Nat.sub_le _ _) ?_ hfits (hroom rfl) now
      split_ifs <;> omega
  · exact hs.adopts hc _

/-- What is at the path moves aside for the remote entry: the sibling gains what the path
gives up. -/
theorem adopts_aside {st₁ : Store K} (hs : st.Steady st₁) (hc : st.Counted) {path sibling : Path}
    {present remote : FileEntry} (hpresent : st.getFile path = some present) (hne : sibling ≠ path)
    (hfits : 2 * (st.held + remote.size) ≤ u64Max) (hroom : b.pull st.held remote.size = none)
    (now : ℕ) :
    Adopts b remote.size st ((st₁.putFile sibling present now).putFile path remote now) := by
  have hsize : st.tree.previousSize path = present.size := by
    rw [FileTables.previousSize, show st.tree.files[path]? = some present from hpresent]
    rfl
  have hkept : (st₁.putFile sibling present now).tree.previousSize path = present.size := by
    show FileTables.previousSize (st₁.tree.putFile sibling present now).1 path = _
    rw [FileTables.previousSize, FileTables.files_putFile, Table.getElem?_insert_ne _ _ hne, hs.files]
    exact hsize
  have hle := st.previousSize_le_held path
  have hfirst := st₁.held_putFile sibling present now
  have hsecond := (st₁.putFile sibling present now).held_putFile path remote now
  rw [hs.held] at hfirst
  rw [hkept] at hsecond
  have hcount : (st₁.putFile sibling present now).Counted :=
    (hs.counted hc).putFile (by rw [hs.held]; omega) now
  refine ⟨hs.budget, hcount.putFile (by omega) now, Or.inr ⟨st.held, le_rfl, hroom, ?_⟩⟩
  omega

theorem applyConflict_adopts (hb : st.budget = some b) (hc : st.Counted) (source : ChunkSource)
    (now n : ℕ) (remote : FileEntry) {present : FileEntry} (owner : UserId)
    (hpath : validate path = .ok ()) (hpresent : st.getFile path = some present)
    (hfits : 2 * (st.held + remote.size) ≤ u64Max) :
    Adopts b remote.size st (applyConflict source now st n path remote present owner).1 := by
  have hrefl := (Store.Steady.refl st).adopts (b := b) hc remote.size
  obtain ⟨hs, hroom⟩ := gather_steady hb hc source n path remote false owner
  unfold applyConflict Store.stat
  dsimp only
  cases hsib : validate (siblingOf path (loserOf present remote)) with
  | error error => exact hrefl
  | ok u =>
    dsimp only
    split
    · exact hrefl
    · rcases hg : gather source st n path remote false owner with ⟨st₁, n₁, error | _ | applied⟩
      all_goals
        rw [hg] at hs hroom
        dsimp only at hs hroom ⊢
      · exact hs.adopts hc _
      · rw [Store.adoptEntry_ok hsib, Store.adoptEntry_ok hsib]
        split
        · dsimp only
          rw [Store.adoptEntry_ok hpath]
          exact adopts_aside hs hc hpresent (siblingOf_ne path _) hfits (hroom rfl) now
        · exact adopts_putFile hs hc le_rfl (Nat.le_add_right _ _) (by omega) (hroom rfl) now
      · exact hs.adopts hc _

/-- **Taking in another device's version adds what there is room for.** -/
theorem applyUpsert_adopts (hb : st.budget = some b) (hc : st.Counted) (source : ChunkSource)
    (now n : ℕ) (path : Path) (remote : FileEntry) (owner : UserId)
    (hfits : 2 * (st.held + remote.size) ≤ u64Max) :
    Adopts b remote.size st (applyUpsert source now st n path remote owner).1 := by
  have hrefl := (Store.Steady.refl st).adopts (b := b) hc remote.size
  have hadopt := fun replacing =>
    adoptUpsert_adopts hb hc source now n path remote replacing owner (by omega)
  unfold applyUpsert Store.stat Store.tombstone
  cases hv : validate path with
  | error error => exact hrefl
  | ok u =>
    dsimp only
    cases hpresent : st.getFile path with
    | some present =>
      dsimp only
      cases present.version.compare remote.version with
      | equal => exact hrefl
      | after => exact hrefl
      | before => exact hadopt true
      | concurrent => exact applyConflict_adopts hb hc source now n remote owner hv hpresent hfits
    | none =>
      dsimp only
      cases st.getTombstone path with
      | none => exact hadopt false
      | some tombstone =>
        dsimp only
        cases tombstone.version.compare remote.version with
        | equal => exact hrefl
        | after => exact hrefl
        | before => exact hadopt false
        | concurrent => exact hadopt false

end

/-! ### Writing -/

section
variable {b : WriteBudget} {st : Store K}

/-- An accepted chunk passed the budget with the bytes so far. -/
theorem onChunk_passed {budget : Option WriteBudget} {account : ℕ}
    {s s' : Store.Streaming} {x : Bytes} (h : Store.onChunk K path budget account s x = (s', none)) :
    (budget.bind fun b => Store.refusePast path b account (saturatingAdd account s'.size)) = none := by
  unfold Store.onChunk at h
  dsimp only at h
  split at h
  · cases h
  · rename_i hpassed
    cases h
    exact hpassed

/-- A stream of at least one chunk passed the budget with all its bytes. -/
theorem walk_onChunk_passed {budget : Option WriteBudget} {account : ℕ} :
    ∀ (ps : List Bytes) (s s' : Store.Streaming),
      Walk.walk (Store.onChunk K path budget account) s ps = (s', none) → ps ≠ [] →
      (budget.bind fun b => Store.refusePast path b account (saturatingAdd account s'.size)) = none
  | [x], s, s', h, _ => by
    obtain ⟨s₁, hx, hrest⟩ := Walk.walk_ok_cons h
    cases hrest
    exact onChunk_passed hx
  | x :: y :: ps, s, s', h, _ => by
    obtain ⟨s₁, -, hrest⟩ := Walk.walk_ok_cons h
    exact walk_onChunk_passed (y :: ps) s₁ s' hrest (List.cons_ne_nil _ _)

/-- A reader without a byte is cut into no chunk. -/
theorem pieces_of_content_nil (c : Chunker) : ∀ {reader : Reader}, content reader = some [] →
    pieces c reader = ([], none)
  | [], _ => by simp [pieces, cutLoop, fill, c.maxSize_pos]
  | .data [] :: rest, _ => by simp [pieces, cutLoop, fill, c.maxSize_pos]
  | .data (x :: xs) :: rest, h => by
    obtain ⟨bytes, -, hbytes⟩ := Option.map_eq_some_iff.mp h
    cases hbytes

/-- A refusal not made: the whole account is within what it may hold, and what is here under
the ceiling. -/
theorem within_of_refusePast {account total : ℕ}
    (h : Store.refusePast path b account total = none) :
    total ≤ b.allowed ∧ b.Under (total - b.elsewhere) := by
  unfold Store.refusePast at h
  split_ifs at h with hallowed
  refine ⟨Nat.le_of_not_lt hallowed, fun ceiling hc => ?_⟩
  rw [hc] at h
  dsimp only at h
  by_contra hover
  rw [if_pos (Nat.lt_of_not_le hover)] at h
  cases h

/-- What an accepted write of `bytes` at `path` does to the bytes here. -/
structure Wrote (b : WriteBudget) (path : Path) (bytes : Bytes) (st st' : Store K) : Prop where
  budget : st'.budget = st.budget
  counted : st'.Counted
  held : st'.held + st.tree.previousSize path = st.held + bytes.length
  passed : bytes = [] ∨ b.elsewhere + st'.held ≤ b.allowed ∧ b.Under st'.held

theorem accountBesides_eq (hc : st.Counted) (hfits : b.elsewhere + st.held ≤ u64Max) (path : Path) :
    (st.accountBesides path b).2 = b.elsewhere + (st.held - st.tree.previousSize path) := by
  have hle := st.previousSize_le_held path
  show saturatingAdd b.elsewhere st.localBytes.2 - st.tree.previousSize path = _
  rw [Store.localBytes_eq_held hc, saturatingAdd, min_eq_left hfits]
  omega

/-- An accepted write leaves the account within the budget exactly where it brought a byte or
what is besides its path was within it. -/
theorem Wrote.within_iff {bytes : Bytes} (hw : Wrote b path bytes st st')
    (hc : st.Counted) (hfits : b.elsewhere + st.held ≤ u64Max) :
    b.elsewhere + st'.held ≤ b.allowed ↔ (bytes = [] → (st.accountBesides path b).2 ≤ b.allowed) := by
  have hheld := hw.held
  have hle := st.previousSize_le_held path
  rw [accountBesides_eq hc hfits]
  rcases hw.passed with rfl | ⟨hallowed, -⟩
  · rw [List.length_nil] at hheld
    rw [show st'.held = st.held - st.tree.previousSize path by omega]
    exact ⟨fun h _ => h, fun h => h rfl⟩
  · refine ⟨fun _ hempty => ?_, fun _ => hallowed⟩
    rw [hempty, List.length_nil] at hheld
    omega

/-- **A write is refused and leaves the files alone, or its bytes are put at its path**, having
passed the budget if there are any. -/
theorem writeStream_wrote (hb : st.budget = some b) (hc : st.Counted) (path : Path) (reader : Reader)
    (now : ℕ) (hfits : b.elsewhere + st.held + (content reader).elim 0 List.length ≤ u64Max) :
    (∃ error, (st.writeStream path reader now).2 = .error error ∧
      st.Steady (st.writeStream path reader now).1) ∨
    ∃ entry bytes, (st.writeStream path reader now).2 = .ok entry ∧ content reader = some bytes ∧
      validate path = .ok () ∧ Wrote b path bytes st (st.writeStream path reader now).1 := by
  have hsteady := st.steady_accountFor path
  have haccount := accountBesides_eq (b := b) hc (by omega) path
  unfold Store.writeStream Store.writeIndex
  cases hv : validate path with
  | error error => exact Or.inl ⟨error, rfl, .refl st⟩
  | ok u =>
    rw [show st.accountFor path = st.accountBesides path b by rw [Store.accountFor, hb]] at hsteady ⊢
    rcases hst : st.accountBesides path b with ⟨st₁, account⟩
    rw [hst] at hsteady haccount
    dsimp only at hsteady haccount ⊢
    rw [splitStream_eq_walk]
    rcases hw : Walk.walk (Store.onChunk K path st₁.budget account) ⟨st₁.blobs, [], [], [], 0⟩
      (pieces st₁.chunker reader).1 with ⟨s, _ | refusal⟩
    · cases hp : (pieces st₁.chunker reader).2 with
      | some error => exact Or.inl ⟨error, rfl, hsteady.trans ⟨rfl, rfl, fun h => h.cached⟩⟩
      | none =>
        obtain ⟨-, -, hsize⟩ := walk_onChunk_ok path st₁.budget account _ _ s hw
        have hcontent := pieces_flatten hp
        have hlen : s.size = (pieces st₁.chunker reader).1.flatten.length := by simpa using hsize
        rw [hcontent, Option.elim_some, ← hlen] at hfits
        set stored : Store K := { st₁ with blobs := s.blobs } with hstored
        have hs : st.Steady stored := hsteady.trans ⟨rfl, rfl, fun h => h.cached⟩
        have hprev : stored.tree.previousSize path = st.tree.previousSize path := by
          rw [FileTables.previousSize, hs.files]
          rfl
        have hsum := stored.held_putFile path (st₁.streamedEntry path now s) now
        rw [hs.held, hprev] at hsum
        have hput : (stored.putFile path (st₁.streamedEntry path now s) now).Counted := by
          refine (hs.counted hc).putFile ?_ now
          rw [hs.held]
          exact (Nat.le_add_left _ b.elsewhere).trans (by rw [← Nat.add_assoc]; exact hfits)
        refine Or.inr ⟨_, _, rfl, hcontent, rfl, hs.budget, ⟨hput.cached, hput.fits⟩, hlen ▸ hsum, ?_⟩
        by_cases hempty : (pieces st₁.chunker reader).1 = []
        · exact Or.inl (by rw [hempty]; rfl)
        · have hpassed := walk_onChunk_passed _ _ s hw hempty
          rw [hsteady.budget, hb] at hpassed
          obtain ⟨hallowed, hunder⟩ := within_of_refusePast hpassed
          have hle := st.previousSize_le_held path
          have htotal : saturatingAdd account s.size =
              b.elsewhere + (stored.putFile path (st₁.streamedEntry path now s) now).held := by
            rw [haccount, saturatingAdd]
            have : (st₁.streamedEntry path now s).size = s.size := rfl
            omega
          rw [htotal] at hallowed hunder
          rw [Nat.add_sub_cancel_left] at hunder
          exact Or.inr ⟨hallowed, hunder⟩
    · exact Or.inl ⟨refusal, rfl, hsteady.trans ⟨rfl, rfl, fun h => h.cached⟩⟩

/-- No budget refuses a write without a byte. -/
theorem writeStream_nil (st : Store K) {reader : Reader} (hpath : validate path = .ok ())
    (hempty : content reader = some []) (now : ℕ) :
    ∃ entry, (st.writeStream path reader now).2 = .ok entry := by
  unfold Store.writeStream Store.writeIndex
  rw [hpath]
  dsimp only
  rw [splitStream_eq_walk, pieces_of_content_nil _ hempty]
  exact ⟨_, rfl⟩

end

/-! ### Runs -/

/-- What a device under a budget does: write, or take another device's file in. -/
inductive Turn
  | write (path : Path) (reader : Reader) (now : ℕ)
  /-- The entry goes to `path` if there is room for it. -/
  | adopt (path : Path) (entry : FileEntry) (replacing : Bool) (now : ℕ)
  /-- A merge, which keeps both of two concurrent versions. -/
  | merge (source : ChunkSource) (now n : ℕ) (path : Path) (remote : FileEntry) (owner : UserId)

namespace Turn

def apply (st : Store K) : Turn → Store K
  | write path reader now => (st.writeStream path reader now).1
  | adopt path entry replacing now =>
    match st.pullRoom path entry.size replacing with
    | (st, some _) => st
    | (st, none) => (st.adoptEntry path entry now).1
  | merge source now n path remote owner => (applyUpsert source now st n path remote owner).1

def run (st : Store K) (turns : List Turn) : Store K := turns.foldl apply st

/-- The bytes a turn brings. -/
def incoming : Turn → ℕ
  | write _ reader _ => (content reader).elim 0 List.length
  | adopt _ entry _ _ => entry.size
  | merge _ _ _ _ remote _ => remote.size

def Pulls : Turn → Prop
  | write .. => False
  | adopt .. => True
  | merge .. => True

/-- The sums of a turn fit a `u64`. -/
def Fits (b : WriteBudget) (st : Store K) (turn : Turn) : Prop :=
  b.elsewhere + st.held + turn.incoming ≤ u64Max ∧ 2 * (st.held + turn.incoming) ≤ u64Max

/-- The sums of a run fit a `u64`. -/
def SumsFit (b : WriteBudget) (st : Store K) (turns : List Turn) : Prop :=
  ∀ earlier turn, earlier ++ [turn] <+: turns → Fits b (run st earlier) turn

/-- `st` is held to `b`, and within its ceiling. -/
structure Bounded (b : WriteBudget) (st : Store K) : Prop where
  budget : st.budget = some b
  counted : st.Counted
  under : b.Under st.held

section
variable {b : WriteBudget} {st : Store K}

theorem adopt_adopts (hb : st.budget = some b) (hc : st.Counted)
    (replacing : Bool) (now : ℕ) (hfits : st.held + entry.size ≤ u64Max) :
    Adopts b entry.size st (apply st (.adopt path entry replacing now)) := by
  have hsteady := st.steady_pullRoom path entry.size replacing
  have hroom := Store.pullRoom_eq hb path entry.size replacing
  rw [Store.localBytes_eq_held hc] at hroom
  unfold apply
  dsimp only
  rcases hp : st.pullRoom path entry.size replacing with ⟨st₁, _ | room⟩
  all_goals
    rw [hp] at hsteady hroom
    dsimp only at hsteady hroom ⊢
  · unfold Store.adoptEntry
    cases validate path with
    | error error => exact hsteady.adopts hc _
    | ok u =>
      refine adopts_putFile hsteady hc (Nat.sub_le _ _) ?_ hfits hroom.symm now
      split_ifs <;> omega
  · exact hsteady.adopts hc _

variable {turn : Turn}

/-- What a turn that pulls does. -/
theorem Pulls.adopts (h : turn.Pulls) (hb : st.budget = some b) (hc : st.Counted)
    (hfits : turn.Fits b st) : Adopts b turn.incoming st (turn.apply st) := by
  obtain ⟨-, hfits⟩ := hfits
  cases turn with
  | write path reader now => exact h.elim
  | adopt path entry replacing now =>
    exact adopt_adopts hb hc replacing now ((Nat.le_mul_of_pos_left _ two_pos).trans hfits)
  | merge source now n path remote owner =>
    exact applyUpsert_adopts hb hc source now n path remote owner hfits

/-- **A turn keeps the bytes here under the ceiling.** -/
theorem Bounded.step (h : Bounded b st) {then' : ℕ} (hset : b.SetAt then') (hthen : b.Under then')
    (hfits : turn.Fits b st) : Bounded b (turn.apply st) := by
  have hpulled : turn.Pulls → Bounded b (turn.apply st) := fun hpulls =>
    have hp := hpulls.adopts h.budget h.counted hfits
    ⟨hp.budget.trans h.budget, hp.counted, (hp.within hset hthen hfits.2).1 h.under⟩
  cases turn with
  | adopt path entry replacing now => exact hpulled trivial
  | merge source now n path remote owner => exact hpulled trivial
  | write path reader now =>
    rcases writeStream_wrote h.budget h.counted path reader now hfits.1 with
      ⟨error, -, hs⟩ | ⟨entry, bytes, -, -, -, hw⟩
    · exact ⟨hs.budget.trans h.budget, hs.counted h.counted, hs.held ▸ h.under⟩
    · refine ⟨hw.budget.trans h.budget, hw.counted, ?_⟩
      rcases hw.passed with rfl | ⟨-, hunder⟩
      · -- nothing came, and what was at the path is gone
        have hheld := hw.held
        rw [List.length_nil] at hheld
        exact h.under.mono (show (st.writeStream path reader now).1.held ≤ st.held by omega)
      · exact hunder

theorem run_append (st : Store K) (turns : List Turn) (turn : Turn) :
    run st (turns ++ [turn]) = turn.apply (run st turns) := by
  rw [run, List.foldl_append]
  rfl

theorem SumsFit.before {earlier turns : List Turn} (h : SumsFit b st turns)
    (hpre : earlier <+: turns) :
    SumsFit b st earlier :=
  fun before turn hb => h before turn (hb.trans hpre)

theorem Bounded.run (h : Bounded b st) (hset : b.SetAt st.held) (turns : List Turn)
    (hsums : SumsFit b st turns) : Bounded b (run st turns) := by
  induction turns using List.reverseRecOn with
  | nil => exact h
  | append_singleton turns turn ih =>
    rw [run_append]
    exact (ih (hsums.before (List.prefix_append _ _))).step hset h.under
      (hsums turns turn List.prefix_rfl)

theorem grown_run (h : Bounded b st) (hset : b.SetAt st.held) (turns : List Turn)
    (hsums : SumsFit b st turns) (hpulls : ∀ turn ∈ turns, turn.Pulls) :
    b.Grown (run st turns).held := by
  induction turns using List.reverseRecOn with
  | nil => exact hset.grown
  | append_singleton turns turn ih =>
    have hbefore := hsums.before (List.prefix_append turns [turn])
    have hbounded := h.run hset turns hbefore
    have hfits := hsums turns turn List.prefix_rfl
    have hp := (hpulls turn (by simp)).adopts hbounded.budget hbounded.counted hfits
    rw [run_append]
    exact (hp.within hset h.under hfits.2).2 (ih hbefore fun t ht => hpulls t (by simp [ht]))

/-- **The write budget is honoured**, but for writes of nothing. Let a budget be set while the
files here come to what its folder copy says and are under its ceiling, and let the device
write and take other devices' files in, with sums that fit a `u64`. After every accepted write
the account is within what it may hold exactly where no empty stream is written while what
the account holds besides its path is past that already. After every turn the bytes here are
under the ceiling. And if nothing is written, the growth since the budget was set fits the
room that was free then. -/
theorem budget_honoured {b : WriteBudget} {st : Store K} (hbounded : Bounded b st)
    (hset : b.SetAt st.held) (turns : List Turn) (hsums : SumsFit b st turns) :
    ((∀ earlier path reader now entry, earlier ++ [.write path reader now] <+: turns →
        ((run st earlier).writeStream path reader now).2 = .ok entry →
        b.elsewhere + ((run st earlier).writeStream path reader now).1.localBytes.2 ≤ b.allowed) ↔
      ∀ earlier path reader now, earlier ++ [.write path reader now] <+: turns →
        validate path = .ok () → content reader = some [] →
        ((run st earlier).accountBesides path b).2 ≤ b.allowed) ∧
    (∀ earlier, earlier <+: turns → ∀ ceiling, b.localCeiling = some ceiling →
      (run st earlier).localBytes.2 ≤ ceiling) ∧
    ((∀ turn ∈ turns, turn.Pulls) →
      match b.folderCopy with
      | .none => True
      | .sameVolume localThen => ∀ ceiling, b.localCeiling = some ceiling →
          2 * ((run st turns).localBytes.2 - localThen) ≤ ceiling - localThen
      | .otherVolume localThen room => (run st turns).localBytes.2 - localThen ≤ room) := by
  have hrun : ∀ earlier, earlier <+: turns → Bounded b (run st earlier) := fun earlier hpre =>
    hbounded.run hset earlier (hsums.before hpre)
  refine ⟨⟨fun hwithin earlier path reader now hpre hpath hempty => ?_,
    fun hnothing earlier path reader now entry hpre hentry => ?_⟩, fun earlier hpre ceiling hc => ?_,
    fun hpulls => ?_⟩
  · -- an empty stream is never refused
    have hb := hrun earlier ((List.prefix_append _ _).trans hpre)
    obtain ⟨hfits, -⟩ := hsums earlier _ hpre
    obtain ⟨entry, hentry⟩ := writeStream_nil (run st earlier) hpath hempty now
    rcases writeStream_wrote hb.budget hb.counted path reader now hfits with
      ⟨error, herror, -⟩ | ⟨entry', bytes, -, hbytes, -, hw⟩
    · rw [hentry] at herror
      cases herror
    · have hafter := hwithin earlier path reader now entry hpre hentry
      rw [Store.localBytes_eq_held hw.counted] at hafter
      rw [hempty] at hbytes
      exact (hw.within_iff hb.counted ((Nat.le_add_right _ _).trans hfits)).mp hafter
        (Option.some.inj hbytes).symm
  · have hb := hrun earlier ((List.prefix_append _ _).trans hpre)
    obtain ⟨hfits, -⟩ := hsums earlier _ hpre
    rcases writeStream_wrote hb.budget hb.counted path reader now hfits with
      ⟨error, herror, -⟩ | ⟨entry', bytes, -, hbytes, hpath, hw⟩
    · rw [hentry] at herror
      cases herror
    · rw [Store.localBytes_eq_held hw.counted]
      refine (hw.within_iff hb.counted ((Nat.le_add_right _ _).trans hfits)).mpr fun hempty => ?_
      exact hnothing earlier path reader now hpre hpath (hempty ▸ hbytes)
  · rw [Store.localBytes_eq_held (hrun earlier hpre).counted]
    exact (hrun earlier hpre).under ceiling hc
  · rw [Store.localBytes_eq_held (hrun turns List.prefix_rfl).counted]
    exact grown_run hbounded hset turns hsums hpulls

/-! ### An empty file past the budget -/

instance decidableFits (b : WriteBudget) (st : Store K) (turn : Turn) : Decidable (turn.Fits b st) :=
  inferInstanceAs (Decidable (_ ∧ _))

theorem SumsFit.nil (b : WriteBudget) (st : Store K) : SumsFit b st [] :=
  fun earlier turn h => absurd (List.prefix_nil.mp h) (by simp)

theorem SumsFit.cons {turns : List Turn} (h : turn.Fits b st)
    (hrest : SumsFit b (turn.apply st) turns) : SumsFit b st (turn :: turns) := by
  intro earlier t hpre
  cases earlier with
  | nil =>
    obtain ⟨rfl, -⟩ := List.cons_prefix_cons.mp hpre
    exact h
  | cons first earlier =>
    obtain ⟨rfl, hlater⟩ := List.cons_prefix_cons.mp hpre
    exact hrest earlier t hlater

/-- A store nothing has been written to, under `b`. -/
def fresh (b : WriteBudget) : Store symbolic := (Store.new 1 7 twoBytes).setWriteBudget (some b)

theorem fresh_bounded (b : WriteBudget) : Bounded b (fresh b) :=
  ⟨rfl, ⟨fun _ h => (Option.some_ne_none _ h.symm).elim, Nat.zero_le _⟩, fun _ _ => Nat.zero_le _⟩

/-- Another device's file of `size` bytes. -/
def foreignFile (size : ℕ) : FileEntry :=
  { size := size, modifiedUnix := 0, contentHash := 0, chunks := [], version := .new, author := 2 }

/-- **An empty file is written past the budget.** All ten bytes the account may hold are
elsewhere, five of them are then fetched, and `check_room` has no room for a file of no
bytes; writing one is accepted. -/
theorem empty_file_past_budget :
    let b : WriteBudget := ⟨10, 10, some 100, .none⟩
    let turns : List Turn := [.adopt "a".toList (foreignFile 5) false 1]
    let st := run (fresh b) turns
    Bounded b (fresh b) ∧ b.SetAt (fresh b).held ∧
      SumsFit b (fresh b) (turns ++ [.write "b".toList [] 2]) ∧
      (st.checkRoom "b".toList 0).2 = .error (.overBudget "b".toList 15 15 10) ∧
      (∃ entry, (st.writeStream "b".toList [] 2).2 = .ok entry) ∧
      ¬b.elsewhere + (st.writeStream "b".toList [] 2).1.localBytes.2 ≤ b.allowed := by
  intro b turns st
  have hsums : SumsFit b (fresh b) (turns ++ [.write "b".toList [] 2]) :=
    .cons (by decide +kernel) (.cons (by decide +kernel) (.nil _ _))
  exact ⟨fresh_bounded b, trivial, hsums, by decide +kernel, ⟨_, rfl⟩, by decide +kernel⟩

/-- Under a ceiling of 20 bytes with the folder on the same volume, a file of 8 bytes takes the
place of one of 5, and one of 3 more is refused. -/
theorem budget_honoured_fetches :
    let b : WriteBudget := ⟨100, 0, some 20, .sameVolume 0⟩
    let turns : List Turn := [.adopt "a".toList (foreignFile 5) false 1,
      .adopt "a".toList (foreignFile 8) true 2, .adopt "b".toList (foreignFile 3) false 3]
    (run (fresh b) turns).localBytes.2 = 8 ∧
      2 * ((run (fresh b) turns).localBytes.2 - 0) ≤ 20 - 0 := by
  intro b turns
  have hsums : SumsFit b (fresh b) turns :=
    .cons (by decide +kernel) (.cons (by decide +kernel) (.cons (by decide +kernel) (.nil _ _)))
  have hpulls : ∀ turn ∈ turns, turn.Pulls := by
    simp [turns, Pulls]
  obtain ⟨-, -, hgrown⟩ := budget_honoured (fresh_bounded b) rfl turns hsums
  exact ⟨by decide +kernel, hgrown hpulls 20 rfl⟩

end

end Turn

end Itsanas
