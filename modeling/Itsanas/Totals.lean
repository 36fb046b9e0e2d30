/-
# The totals of a vault

A vault keeps running totals of what it holds, in all and for each owner, and enforces its
pledge on them. A call of `itsanas-store/src/vault.rs` writes blobs and rows in separate steps,
each atomic by itself, and may stop between any two, by an error or because the process dies.
Here each call is the list of its steps (`Depot.stages`), with what covers it should it stop:
a call that has a blob and its row apart marks the vault suspect, a suspect vault leaves its
open mark standing, and the next open counts the blobs again.

That covers the chunks. Nothing covers the chains: `forget_owner` takes their rows out table by
table, and a call that stops in between leaves bytes charged for segments that are gone, which
no later open looks at (`VaultWorld.forget_cut_off`). Without such a cut the totals are true
whenever nothing has failed since the last open, whatever failed before
(`VaultWorld.totals_true`).

A batch of rows is one transaction in the source. Here each row is, so that a call may stop at
more points than there.
-/
import Itsanas.Chains
import Itsanas.Lib.Stages

namespace Itsanas

open Stages

variable {K : Crypto}

namespace Depot

/-- What covers a call that stops before a step. -/
inductive Cover
  /-- Nothing is half done. -/
  | plain
  /-- The vault is marked suspect. -/
  | unsure
  /-- Rows of chains are half gone. -/
  | midChains
  deriving DecidableEq

abbrev VaultStage (K : Crypto) := Stage Cover (Depot K)

/-! ### The steps -/

section
variable (owner : UserId) (address : ChunkId)

/-- Write a blob, unless there is one. -/
def writeBlob (sealed : Bytes) (v : Depot K) : Depot K :=
  let key := chunkKey owner address
  { v with blobs := v.blobs.insert key ((v.blobs[key]?).getD sealed) }

/-- Write the row of a blob, with the size on disk. -/
def indexChunk (v : Depot K) : Depot K :=
  let key := chunkKey owner address
  let size := ((v.blobs[key]?).map List.length).getD 0
  (({ v with chunks := v.chunks.insert key size } : Depot K).recount owner ((v.chunks[key]?).getD 0)
    size).unmark owner address

def eraseBlob (v : Depot K) : Depot K := { v with blobs := v.blobs.erase (chunkKey owner address) }

/-- Take a row out of the index and the totals. -/
def dropRow (v : Depot K) : Depot K :=
  let key := chunkKey owner address
  let dropped : Depot K := { v with chunks := v.chunks.erase key }
  match v.chunks[key]? with
  | none => dropped
  | some old => dropped.recount owner old 0

def removeStages : List (VaultStage K) :=
  [⟨.unsure, eraseBlob owner address⟩,
    ⟨.unsure, fun v => (dropRow owner address v).unmark owner address⟩]

end

/-- The rows of an owner. -/
def keysOf {κ ν : Type} [Ord κ] [Std.TransOrd κ] (owner : UserId) (t : Table (UserId ×ₗ κ) ν) :
    List (UserId ×ₗ κ) :=
  (t.toList.map Prod.fst).filter fun key => (ofLex key).1 = owner

/-- Evict marked chunks: drop the expired marks, then the blobs, then all their rows at once. -/
def evictStages (v : Depot K) (owner : UserId) (needed now : ℕ) : List (VaultStage K) :=
  if needed = 0 then []
  else
    let (chosen, expired, room) := v.chooseEvictions owner needed now [] [] 0 (v.marksOf owner)
    (if expired.isEmpty then [] else [⟨.plain, fun v => expired.foldl (dropMark owner) v⟩]) ++
      if chosen.isEmpty ∨ room < needed then []
      else
        chosen.map (fun mark => ⟨.unsure, eraseBlob owner mark.2⟩) ++
          [⟨.unsure, fun v =>
            chosen.foldl (fun v mark => dropMark owner (dropRow owner mark.2 v) mark) v⟩]

/-- Take the chains of an owner out, table by table. -/
def chainErasers (v : Depot K) (owner : UserId) : List (Depot K → Depot K) :=
  (keysOf owner v.segments).map (fun key v => { v with segments := v.segments.erase key }) ++
    (keysOf owner v.heads).map (fun key v => { v with heads := v.heads.erase key }) ++
    (keysOf owner v.chainLengths).map
      (fun key v => { v with chainLengths := v.chainLengths.erase key }) ++
    (keysOf owner v.chainBytes).map (fun key v => { v with chainBytes := v.chainBytes.erase key })

/-- Before the first of them nothing is half done. -/
def midChains : List (Depot K → Depot K) → List (VaultStage K)
  | [] => []
  | first :: rest => ⟨.plain, first⟩ :: rest.map fun effect => ⟨.midChains, effect⟩

/-- What is left of an owner after its chunks and chains: marks, the day's count, and blobs
without a row, which go with the directory. -/
def lastErasers (v : Depot K) (owner : UserId) : List (Depot K → Depot K) :=
  (keysOf owner v.evictable).map (fun key v => { v with evictable := v.evictable.erase key }) ++
    (keysOf owner v.evictionOrder).map
      (fun key v => { v with evictionOrder := v.evictionOrder.erase key }) ++
    (fun v => { v with evictQuota := v.evictQuota.erase owner }) ::
      (keysOf owner v.blobs).map (fun key v => { v with blobs := v.blobs.erase key })

/-- Without the chunks of an owner. -/
def emptied (v : Depot K) (owner : UserId) : Depot K :=
  (v.chunksFor owner).foldl (fun v address => v.removeChunk owner address) v

def forgetStages (v : Depot K) (owner : UserId) : List (VaultStage K) :=
  (v.chunksFor owner).flatMap (removeStages owner) ++
    (midChains ((v.emptied owner).chainErasers owner) ++
      ((v.emptied owner).lastErasers owner).map fun effect => ⟨.plain, effect⟩)

def maxCheckBatch : ℕ := 4096

/-- Drop a row if its blob is gone. -/
def dropIfGone (v : Depot K) (key : UserId ×ₗ ChunkId) : Depot K :=
  if (v.blobs[key]?).isSome ∨ (v.chunks[key]?).isNone then v
  else (dropRow (ofLex key).1 (ofLex key).2 v).unmark (ofLex key).1 (ofLex key).2

/-- The rows a check looks at, from where the last one ended. -/
def checkSlice (v : Depot K) (cursor : Option (UserId ×ₗ ChunkId)) (limit : ℕ) :
    List (UserId ×ₗ ChunkId) :=
  ((v.chunks.toList.map Prod.fst).filter fun key => cursor.all fun after => after < key).take
    (min limit maxCheckBatch)

/-- A call on a vault. -/
inductive VaultOp (K : Crypto)
  | putChunk (owner : UserId) (address : ChunkId) (sealed : Bytes)
  | removeChunk (owner : UserId) (address : ChunkId)
  | markEvictable (owner : UserId) (chunks : List ChunkId) (now : ℕ)
  | evictMarked (owner : UserId) (needed now : ℕ)
  | putSegment (envelope : SegmentEnvelope K)
  | forgetOwner (owner : UserId)
  | checkDisk (cursor : Option (UserId ×ₗ ChunkId)) (limit : ℕ)

variable [SealedLength K]

/-- The steps of a call after it began. -/
def steps (v : Depot K) : VaultOp K → List (VaultStage K)
  | .putChunk owner address sealed =>
    [⟨.unsure, writeBlob owner address sealed⟩, ⟨.unsure, indexChunk owner address⟩]
  | .removeChunk owner address => removeStages owner address
  | .markEvictable owner chunks now => [⟨.plain, fun v => (v.markEvictable owner chunks now).1⟩]
  | .evictMarked owner needed now => v.evictStages owner needed now
  | .putSegment envelope => [⟨.plain, fun v => (v.putSegment envelope).1⟩]
  | .forgetOwner owner => v.forgetStages owner
  | .checkDisk cursor limit => [⟨.plain, fun v => (v.checkSlice cursor limit).foldl dropIfGone v⟩]

/-- The steps of a call. Any call may fail before it does anything. -/
def stages (v : Depot K) (op : VaultOp K) : List (VaultStage K) := ⟨.plain, id⟩ :: v.steps op

/-- What a call makes of a vault whose index is right. -/
def VaultOp.result (v : Depot K) : VaultOp K → Depot K
  | .putChunk owner address sealed => (v.putChunk owner address sealed).1
  | .removeChunk owner address => v.removeChunk owner address
  | .markEvictable owner chunks now => (v.markEvictable owner chunks now).1
  | .evictMarked owner needed now => (v.evictMarked owner needed now).1
  | .putSegment envelope => (v.putSegment envelope).1
  | .forgetOwner owner => v.forgetOwner owner
  | .checkDisk _ _ => v

/-! ### The steps together are the call -/

omit [SealedLength K] in
theorem putChunk_eq (v : Depot K) (owner : UserId) (address : ChunkId) (sealed : Bytes) :
    indexChunk owner address (writeBlob owner address sealed v) =
      (v.putChunk owner address sealed).1 := by
  rw [indexChunk, writeBlob, putChunk]
  dsimp only
  rw [Table.getElem?_insert_self', Option.map_some, Option.getD_some]

omit [SealedLength K] in
theorem dropChunk_eq (v : Depot K) (owner : UserId) (address : ChunkId) :
    dropRow owner address (eraseBlob owner address v) = v.dropChunk owner address := rfl

omit [SealedLength K] in
theorem after_removeStages (owner : UserId) (addresses : List ChunkId) (v : Depot K) :
    after v (addresses.flatMap (removeStages owner)) =
      addresses.foldl (fun v address => v.removeChunk owner address) v := by
  induction addresses generalizing v with
  | nil => rfl
  | cons address rest ih =>
    rw [List.flatMap_cons, after_append, ih]
    rfl

omit [SealedLength K] in
theorem after_evictStages (v : Depot K) (owner : UserId) (needed now : ℕ) :
    after v (v.evictStages owner needed now) = (v.evictMarked owner needed now).1 := by
  rw [evictStages, evictMarked]
  by_cases hneeded : needed = 0
  · rw [if_pos hneeded, if_pos hneeded]
    rfl
  rw [if_neg hneeded, if_neg hneeded]
  rcases v.chooseEvictions owner needed now [] [] 0 (v.marksOf owner) with ⟨chosen, expired, room⟩
  dsimp only
  have hpruned : after v (if expired.isEmpty then [] else
      [⟨Cover.plain, fun v => expired.foldl (dropMark owner) v⟩]) =
          expired.foldl (dropMark owner) v := by
    cases expired <;> rfl
  rw [after_append, hpruned]
  by_cases hnone : chosen.isEmpty ∨ room < needed
  · rw [if_pos hnone, if_pos hnone]
    rfl
  rw [if_neg hnone, if_neg hnone, after_append]
  -- rows and marks are dropped without looking at the blobs
  have hcomm : ∀ (v : Depot K) (x y : ℕ × ChunkId),
      eraseBlob owner x.2 (dropMark owner (dropRow owner y.2 v) y) =
        dropMark owner (dropRow owner y.2 (eraseBlob owner x.2 v)) y := by
    intro v x y
    have hrow : (eraseBlob owner x.2 v).chunks = v.chunks := rfl
    unfold dropRow
    dsimp only
    rw [hrow]
    cases v.chunks[chunkKey owner y.2]? <;> rfl
  have hfold := foldl_comm_comp (f := fun v (mark : ℕ × ChunkId) => eraseBlob owner mark.2 v)
    (g := fun v mark => dropMark owner (dropRow owner mark.2 v) mark) hcomm chosen
    (expired.foldl (dropMark owner) v)
  have hblobs : ∀ v : Depot K,
      after v (chosen.map fun mark => (⟨.unsure, eraseBlob owner mark.2⟩ : VaultStage K)) =
        chosen.foldl (fun v mark => eraseBlob owner mark.2 v) v :=
          fun v => by rw [after, List.foldl_map]
  rw [hblobs]
  exact hfold.symm.trans (foldl_fst (fun v mark => dropMark owner (v.dropChunk owner mark.2) mark)
    (fun s mark => s.2 + (s.1.chunks[chunkKey owner mark.2]?).getD 0) chosen
    (expired.foldl (dropMark owner) v, 0)).symm

omit [SealedLength K] in
/-- Erasing the keys of an owner from a part of the vault filters that part. -/
theorem foldl_eraseKeys {κ ν : Type} [Ord κ] [Std.TransOrd κ] [Std.LawfulEqOrd κ] [DecidableEq κ]
    (get : Depot K → Table (UserId ×ₗ κ) ν) (set : Table (UserId ×ₗ κ) ν → Depot K → Depot K)
    (hget : ∀ t v, get (set t v) = t) (hset : ∀ t t' v, set t (set t' v) = set t v)
    (hself : ∀ v, set (get v) v = v) (owner : UserId) (v : Depot K) :
    ((keysOf owner (get v)).map fun key v => set ((get v).erase key) v).foldl
      (fun v effect => effect v) v =
      set ((get v).filter fun key _ => (ofLex key).1 ≠ owner) v := by
  rw [List.foldl_map, foldl_part get set (fun t key => t.erase key) hget hset hself, keysOf,
    Table.foldl_erase_keys (get v) fun key => (ofLex key).1 = owner]
  simp only [decide_not]

omit [SealedLength K] in
theorem after_midChains (effects : List (Depot K → Depot K)) (v : Depot K) :
    after v (midChains effects) = effects.foldl (fun v effect => effect v) v := by
  cases effects with
  | nil => rfl
  | cons first rest => exact List.foldl_map

omit [SealedLength K] in
theorem foldl_chainErasers (v : Depot K) (owner : UserId) :
    (v.chainErasers owner).foldl (fun v effect => effect v) v =
      { v with
        toVault := v.toVault.forgotten owner
        chainBytes := v.chainBytes.filter fun key _ => (ofLex key).1 ≠ owner } := by
  have hsegments :=
    foldl_eraseKeys (fun v : Depot K => v.segments) (fun t v => { v with segments := t })
    (fun _ _ => rfl) (fun _ _ _ => rfl) (fun _ => rfl) owner
  have hheads := foldl_eraseKeys (fun v : Depot K => v.heads) (fun t v => { v with heads := t })
    (fun _ _ => rfl) (fun _ _ _ => rfl) (fun _ => rfl) owner
  have hlengths :=
    foldl_eraseKeys (fun v : Depot K => v.chainLengths) (fun t v => { v with chainLengths := t })
    (fun _ _ => rfl) (fun _ _ _ => rfl) (fun _ => rfl) owner
  have hbytes :=
    foldl_eraseKeys (fun v : Depot K => v.chainBytes) (fun t v => { v with chainBytes := t })
    (fun _ _ => rfl) (fun _ _ _ => rfl) (fun _ => rfl) owner
  rw [chainErasers, List.foldl_append, List.foldl_append, List.foldl_append, hsegments, hheads,
    hlengths, hbytes]
  rfl

omit [SealedLength K] in
theorem foldl_lastErasers (v : Depot K) (owner : UserId) :
    (v.lastErasers owner).foldl (fun v effect => effect v) v =
      { v with
        evictable := v.evictable.filter fun key _ => (ofLex key).1 ≠ owner
        evictionOrder := v.evictionOrder.filter fun key _ => (ofLex key).1 ≠ owner
        evictQuota := v.evictQuota.erase owner
        blobs := v.blobs.filter fun key _ => (ofLex key).1 ≠ owner } := by
  have hmarks :=
    foldl_eraseKeys (fun v : Depot K => v.evictable) (fun t v => { v with evictable := t })
    (fun _ _ => rfl) (fun _ _ _ => rfl) (fun _ => rfl) owner
  have horder :=
    foldl_eraseKeys (fun v : Depot K => v.evictionOrder) (fun t v => { v with evictionOrder := t })
    (fun _ _ => rfl) (fun _ _ _ => rfl) (fun _ => rfl) owner
  have hblobs := foldl_eraseKeys (fun v : Depot K => v.blobs) (fun t v => { v with blobs := t })
    (fun _ _ => rfl) (fun _ _ _ => rfl) (fun _ => rfl) owner
  rw [lastErasers, List.foldl_append, List.foldl_append, List.foldl_cons, hmarks, horder, hblobs]

omit [SealedLength K] in
/-- Forgetting an owner step by step takes its blobs too, those the index has lost included. -/
theorem after_forgetStages (v : Depot K) (owner : UserId) :
    after v (v.forgetStages owner) =
      { v.forgetOwner owner with
        blobs := (v.emptied owner).blobs.filter fun key _ => (ofLex key).1 ≠ owner } := by
  have hchunks : after v ((v.chunksFor owner).flatMap (removeStages owner)) = v.emptied owner :=
    after_removeStages owner _ v
  have hchains := (after_midChains ((v.emptied owner).chainErasers owner) (v.emptied owner)).trans
    (foldl_chainErasers (v.emptied owner) owner)
  have hlast := foldl_lastErasers ({ v.emptied owner with
    toVault := (v.emptied owner).toVault.forgotten owner
    chainBytes := (v.emptied owner).chainBytes.filter fun key _ => (ofLex key).1 ≠ owner }) owner
  rw [forgetStages, after_append, after_append, hchunks, hchains, after, List.foldl_map]
  exact hlast

omit [SealedLength K] in
theorem chunks_removeChunk (v : Depot K) (owner : UserId) (address : ChunkId) :
    (v.removeChunk owner address).chunks = v.chunks.erase (chunkKey owner address) := by
  rw [removeChunk, (unmark_same _ owner address).chunks, dropChunk]
  split <;> rfl

omit [SealedLength K] in
/-- The index has no row left of an owner whose chunks were removed. -/
theorem chunks_emptied (v : Depot K) (owner : UserId) (address : ChunkId) :
    (v.emptied owner).chunks[chunkKey owner address]? = none := by
  have hfold : ∀ (addresses : List ChunkId) (v : Depot K),
      (addresses.foldl (fun v address => v.removeChunk owner address) v).chunks =
        (addresses.map (chunkKey owner)).foldl (fun t key => t.erase key) v.chunks := by
    intro addresses
    induction addresses with
    | nil => exact fun _ => rfl
    | cons address rest ih =>
      intro v
      rw [List.foldl_cons, ih, chunks_removeChunk]
      rfl
  rw [emptied, hfold, Table.getElem?_foldl_erase]
  split_ifs with hmem
  · rfl
  · by_contra hrow
    obtain ⟨size, hsize⟩ := Option.ne_none_iff_exists'.mp hrow
    refine hmem (List.mem_map_of_mem (List.mem_filterMap.mpr ⟨(chunkKey owner address, size), ?_, ?_⟩))
    · exact Table.mem_toList.mpr hsize
    · exact if_pos rfl

variable {v : Depot K}

omit [SealedLength K] in
theorem Ok.emptied (h : v.Ok) (owner : UserId) : (v.emptied owner).Ok :=
  (List.foldlRecOn (motive := Shrinks v) _ _ ((SameBytes.refl v).shrinks h)
    fun _ hs address _ => hs.trans (hs.ok.removeChunk owner address)).ok

omit [SealedLength K] in
/-- A vault whose index is right has no blob left of the owner either. -/
theorem Ok.blobs_emptied (h : v.Ok) (owner : UserId) :
    ((v.emptied owner).blobs.filter fun key _ => (ofLex key).1 ≠ owner) = (v.emptied owner).blobs := by
  refine Std.ExtTreeMap.ext_getElem? fun key => ?_
  rw [Table.getElem?_filter_keys (v.emptied owner).blobs fun key => (ofLex key).1 ≠ owner]
  by_cases howner : (ofLex key).1 = owner
  · have hrow := (h.emptied owner).sizes key
    have hkey : key = chunkKey owner (ofLex key).2 := by rw [← howner]; rfl
    rw [hkey, chunks_emptied, ← hkey, eq_comm, Option.map_eq_none_iff] at hrow
    rw [hrow, ite_self]
  · simp [howner]

omit [SealedLength K] in
/-- A check finds nothing gone where the index is right. -/
theorem Ok.check_eq (h : v.Ok) (keys : List (UserId ×ₗ ChunkId)) : keys.foldl dropIfGone v = v := by
  have hone : ∀ key, dropIfGone v key = v := by
    intro key
    rw [dropIfGone, if_pos]
    cases hblob : v.blobs[key]? with
    | some b => exact .inl rfl
    | none =>
      refine .inr ?_
      rw [h.sizes, hblob]
      rfl
  induction keys with
  | nil => rfl
  | cons key rest ih => rw [List.foldl_cons, hone, ih]

/-- **The steps of a call, one after another, are the call.** -/
theorem after_stages (h : v.Ok) (op : VaultOp K) : after v (v.stages op) = op.result v := by
  show after v (v.steps op) = op.result v
  cases op with
  | putChunk owner address sealed => exact putChunk_eq v owner address sealed
  | removeChunk owner address => rfl
  | markEvictable owner chunks now => rfl
  | evictMarked owner needed now => exact after_evictStages v owner needed now
  | putSegment envelope => rfl
  | forgetOwner owner =>
    rw [steps, after_forgetStages, h.blobs_emptied]
    rfl
  | checkDisk cursor limit => exact h.check_eq _

/-! ### What a call that stops leaves -/

variable {stage : VaultStage K}

omit [SealedLength K] in
theorem mem_midChains {effects : List (Depot K → Depot K)}
    (h : stage ∈ midChains effects) : stage.effect ∈ effects := by
  cases effects with
  | nil => cases h
  | cons first rest =>
    obtain rfl | hrest := List.mem_cons.mp h
    · exact List.mem_cons_self
    · obtain ⟨effect, heffect, rfl⟩ := List.mem_map.mp hrest
      exact List.mem_cons_of_mem _ heffect

variable {owner : UserId} {effect : Depot K → Depot K}

omit [SealedLength K] in
/-- Taking out chains leaves the chunks alone. -/
theorem Ok.chainErasers {v w : Depot K} (h : v.Ok)
    (heffect : effect ∈ w.chainErasers owner) : (effect v).Ok := by
  simp only [Depot.chainErasers, List.mem_append, List.mem_map] at heffect
  obtain ((⟨key, _, rfl⟩ | ⟨key, _, rfl⟩) | ⟨key, _, rfl⟩) | ⟨key, _, rfl⟩ := heffect
  all_goals exact ⟨h.sizes, h.total, h.owners⟩

omit [SealedLength K] in
/-- So does the rest, once the owner has no chunks. -/
theorem Ok.lastErasers {v w : Depot K} (h : v.Ok) (hw : keysOf owner w.blobs = [])
    (heffect : effect ∈ w.lastErasers owner) : (effect v).Ok := by
  simp only [Depot.lastErasers, hw, List.map_nil, List.mem_append, List.mem_map,
    List.mem_singleton] at heffect
  obtain (⟨key, _, rfl⟩ | ⟨key, _, rfl⟩) | rfl := heffect
  all_goals exact ⟨h.sizes, h.total, h.owners⟩

omit [SealedLength K] in
theorem Ok.keysOf_emptied (h : v.Ok) (owner : UserId) :
    keysOf owner (v.emptied owner).blobs = [] := by
  refine List.filter_eq_nil_iff.mpr fun key hkey howner => ?_
  obtain ⟨r, hr, rfl⟩ := List.mem_map.mp hkey
  have hkeep :=
    Table.getElem?_filter_keys (v.emptied owner).blobs (fun key => (ofLex key).1 ≠ owner) r.1
  rw [h.blobs_emptied owner, Table.mem_toList.mp hr, if_neg (by simpa using howner)] at hkeep
  cases hkeep

/-- **The chunks.** Wherever a call stops without marking the vault suspect, half gone chains
apart, index and totals agree with the blobs. -/
theorem Ok.stages (h : v.Ok) (op : VaultOp K) :
    Along .plain Ok (fun cover => cover = .plain) v (v.stages op) := by
  have hend : ∀ {w : Depot K} {stages : List (VaultStage K)},
    (∀ stage ∈ stages, stage.cover = .unsure) →
      (after w stages).Ok → Along .plain Ok (fun cover => cover = .plain) w stages :=
    fun hcovers hok =>
      .of_end (fun stage hstage hplain => by rw [hcovers stage hstage] at hplain; cases hplain) hok
  have hremove : ∀ (owner : UserId) (address : ChunkId),
      ∀ stage ∈ (removeStages owner address : List (VaultStage K)), stage.cover = .unsure := by
    intro owner address stage hstage
    simp only [removeStages, List.mem_cons, List.not_mem_nil, or_false] at hstage
    obtain rfl | rfl := hstage <;> rfl
  refine ⟨fun _ => h, ?_⟩
  show Along .plain Ok (fun cover => cover = .plain) v (v.steps op)
  cases op with
  | putChunk owner address sealed =>
    refine hend (fun stage hstage => ?_) ?_
    · simp only [steps, List.mem_cons, List.not_mem_nil, or_false] at hstage
      obtain rfl | rfl := hstage <;> rfl
    · show (indexChunk owner address (writeBlob owner address sealed v)).Ok
      rw [putChunk_eq]
      exact (h.putChunk owner address sealed).1
  | removeChunk owner address => exact hend (hremove owner address) (h.removeChunk owner address).ok
  | markEvictable owner chunks now =>
    exact ⟨fun _ => h, fun _ => (markEvictable_same v owner chunks now).ok h⟩
  | evictMarked owner needed now =>
    have hok : (after v (v.evictStages owner needed now)).Ok := by
      rw [after_evictStages]
      exact (h.evictMarked owner needed now).ok
    show Along .plain Ok (fun cover => cover = .plain) v (v.evictStages owner needed now)
    unfold evictStages at hok ⊢
    by_cases hneeded : needed = 0
    · rw [if_pos hneeded]
      exact fun _ => h
    rw [if_neg hneeded] at hok ⊢
    generalize v.chooseEvictions owner needed now [] [] 0 (v.marksOf owner) = choice at hok ⊢
    obtain ⟨chosen, expired, room⟩ := choice
    dsimp only at hok ⊢
    rw [after_append] at hok
    refine Along.append ?_ (hend (fun stage hstage => ?_) hok)
    · split_ifs
      · exact fun _ => h
      · exact ⟨fun _ => h, fun _ => (dropMarks_same owner expired v).ok h⟩
    · split_ifs at hstage
      · cases hstage
      · simp only [List.mem_append, List.mem_map, List.mem_singleton] at hstage
        obtain ⟨mark, _, rfl⟩ | rfl := hstage <;> rfl
  | putSegment envelope => exact ⟨fun _ => h, fun _ => (h.putSegment envelope).1⟩
  | forgetOwner owner =>
    have hempty := h.emptied owner
    have hafter : after v ((v.chunksFor owner).flatMap (removeStages owner)) = v.emptied owner :=
      after_removeStages owner _ v
    refine (hend (fun stage hstage => ?_) (hafter.symm ▸ hempty)).append ?_
    · obtain ⟨address, _, hstage⟩ := List.mem_flatMap.mp hstage
      exact hremove owner address stage hstage
    rw [hafter]
    refine .of_keeps (fun stage hstage w hw => ?_) hempty
    obtain hstage | hstage := List.mem_append.mp hstage
    · exact hw.chainErasers (mem_midChains hstage)
    · obtain ⟨effect, heffect, rfl⟩ := List.mem_map.mp hstage
      exact hw.lastErasers (h.keysOf_emptied owner) heffect
  | checkDisk cursor limit =>
    refine ⟨fun _ => h, fun _ => ?_⟩
    show ((v.checkSlice cursor limit).foldl dropIfGone v).Ok
    rw [h.check_eq]
    exact h

/-- The chains as they should be, and the bytes charged for them. -/
structure ChainExact (v : Depot K) : Prop where
  vault : v.toVault.Ok
  bytes : ∀ P : UserId → Bool,
    v.chainBytes.weigh (fun key bytes => if P (ofLex key).1 then bytes else 0) =
      v.segments.weigh fun key e => if P (ofLex key).1 then e.encodedLength else 0

theorem ChainExact.new : (new : Depot K).ChainExact :=
  ⟨Vault.new_ok, fun _ => (Table.weigh_empty _).trans (Table.weigh_empty _).symm⟩

/-- Nothing of the chains changed. -/
def SameChains (v v' : Depot K) : Prop := v'.toVault = v.toVault ∧ v'.chainBytes = v.chainBytes

variable {v v' : Depot K}

theorem ChainExact.same (h : v.ChainExact) (hs : SameChains v v') : v'.ChainExact :=
  ⟨hs.1 ▸ h.vault, fun P => by rw [hs.2, h.bytes P, hs.1]⟩

/-- A new segment and its charge. -/
theorem ChainExact.putSegment (h : v.ChainExact) (envelope : SegmentEnvelope K) :
    (v.putSegment envelope).1.ChainExact := by
  rw [Depot.putSegment]
  split
  · rename_i chains hput
    have happended : chains = v.toVault.appended envelope := by
      rw [Vault.putSegment] at hput
      split at hput
      · cases hput
      · dsimp only at hput
        split_ifs at hput <;> cases hput
        rfl
    subst happended
    refine ⟨h.vault.appended envelope, fun P => ?_⟩
    have hnew : v.segments[Vault.segmentKey envelope.owner envelope.device
        ((v.chainLengths[Vault.chainKey envelope.owner envelope.device]?).getD 0)]? = none := by
      by_contra hrow
      have hlt := h.vault.positions _ _ _ (Option.isSome_iff_ne_none.mpr hrow)
      rw [h.vault.lengths] at hlt
      exact Nat.lt_irrefl _ hlt
    have hsegments := Table.weigh_insert
        (fun (key : UserId ×ₗ DeviceId ×ₗ ℕ) (e : SegmentEnvelope K) =>
      if P (ofLex key).1 then e.encodedLength else 0) v.segments
        (Vault.segmentKey envelope.owner envelope.device
        ((v.chainLengths[Vault.chainKey envelope.owner envelope.device]?).getD 0)) envelope
    rw [hnew, Option.elim_none, Nat.add_zero] at hsegments
    show Table.weigh _ (v.chainBytes.insert _ _) = Table.weigh _ (v.segments.insert _ envelope)
    rw [weigh_charged v.chainBytes _ (fun key bytes => if P (ofLex key).1 then bytes else 0)
      (fun a b => by split_ifs <;> rfl) (by rw [ite_self]), h.bytes P, hsegments]
    rfl
  · exact h

/-- All chain rows of an owner gone at once. -/
theorem ChainExact.forgotten (h : v.ChainExact) (hv : v'.toVault = v.toVault.forgotten owner)
    (hb : v'.chainBytes = v.chainBytes.filter fun key _ => (ofLex key).1 ≠ owner) : v'.ChainExact := by
  refine ⟨hv ▸ h.vault.forgotten owner, fun P => ?_⟩
  rw [hb, hv, Vault.forgotten, Table.weigh_filter _ v.chainBytes fun key => (ofLex key).1 ≠ owner,
    Table.weigh_filter _ v.segments fun key => (ofLex key).1 ≠ owner]
  have hrest := h.bytes fun o => decide (o ≠ owner) && P o
  simp only [Bool.and_eq_true, ite_and] at hrest
  exact hrest

omit [SealedLength K] in
theorem SameChains.foldl {α : Type} {f : Depot K → α → Depot K} (hf : ∀ v x, SameChains v (f v x))
    (l : List α) (v : Depot K) : SameChains v (l.foldl f v) :=
  List.foldlRecOn (motive := SameChains v) l f ⟨rfl, rfl⟩
    fun w hw x _ => ⟨(hf w x).1.trans hw.1, (hf w x).2.trans hw.2⟩

omit [SealedLength K] in
theorem SameBytes.sameChains (h : SameBytes v v') : SameChains v v' := ⟨h.chains, h.chainBytes⟩

omit [SealedLength K] in
theorem dropRow_chains (owner : UserId) (address : ChunkId) (v : Depot K) :
    SameChains v (dropRow owner address v) := by
  unfold dropRow
  dsimp only
  split <;> exact ⟨rfl, rfl⟩

omit [SealedLength K] in
theorem unindex_chains (owner : UserId) (address : ChunkId) (v : Depot K) :
    SameChains v ((dropRow owner address v).unmark owner address) :=
  have hrow := dropRow_chains owner address v
  have hmark := unmark_same (dropRow owner address v) owner address
  ⟨hmark.chains.trans hrow.1, hmark.chainBytes.trans hrow.2⟩

omit [SealedLength K] in
theorem removeStages_chains {address : ChunkId}
    (h : stage ∈ removeStages owner address) (v : Depot K) : SameChains v (stage.effect v) := by
  simp only [removeStages, List.mem_cons, List.not_mem_nil, or_false] at h
  obtain rfl | rfl := h
  · exact ⟨rfl, rfl⟩
  · exact unindex_chains owner address v

omit [SealedLength K] in
theorem evictStages_chains {needed now : ℕ}
    (h : stage ∈ v.evictStages owner needed now) (w : Depot K) : SameChains w (stage.effect w) := by
  unfold evictStages at h
  split_ifs at h
  · cases h
  generalize v.chooseEvictions owner needed now [] [] 0 (v.marksOf owner) = choice at h
  obtain ⟨chosen, expired, room⟩ := choice
  obtain h | h := List.mem_append.mp h
  · split_ifs at h
    · cases h
    · obtain rfl := List.mem_singleton.mp h
      exact (dropMarks_same owner expired w).sameChains
  · split_ifs at h
    · cases h
    · simp only [List.mem_append, List.mem_map, List.mem_singleton] at h
      obtain ⟨mark, _, rfl⟩ | rfl := h
      · exact ⟨rfl, rfl⟩
      · refine .foldl (fun w mark => ?_) chosen w
        exact dropRow_chains owner mark.2 w

omit [SealedLength K] in
theorem lastErasers_chains
    (h : effect ∈ v.lastErasers owner) (w : Depot K) : SameChains w (effect w) := by
  simp only [lastErasers, List.mem_append, List.mem_cons, List.mem_map] at h
  obtain (⟨key, _, rfl⟩ | ⟨key, _, rfl⟩) | rfl | ⟨key, _, rfl⟩ := h
  all_goals exact ⟨rfl, rfl⟩

omit [SealedLength K] in
theorem emptied_chains (v : Depot K) (owner : UserId) : SameChains v (v.emptied owner) :=
  .foldl (fun v address => unindex_chains owner address (eraseBlob owner address v))
    (v.chunksFor owner) v

/-- **The chains.** Wherever a call stops, except in the middle of taking out chains, each chain
is charged for what is stored of it. -/
theorem ChainExact.stages (h : v.ChainExact) (op : VaultOp K) :
    Along .plain ChainExact (fun cover => cover ≠ .midChains) v (v.stages op) := by
  refine ⟨fun _ => h, ?_⟩
  show Along .plain ChainExact (fun cover => cover ≠ .midChains) v (v.steps op)
  cases op with
  | putChunk owner address sealed =>
    refine .of_keeps (fun stage hstage w hw => hw.same ?_) h
    simp only [steps, List.mem_cons, List.not_mem_nil, or_false] at hstage
    obtain rfl | rfl := hstage
    · exact ⟨rfl, rfl⟩
    · exact (unmark_same _ owner address).sameChains
  | removeChunk owner address =>
    exact .of_keeps (fun stage hstage w hw => hw.same (removeStages_chains hstage w)) h
  | markEvictable owner chunks now =>
    exact ⟨fun _ => h, fun _ => h.same (markEvictable_same v owner chunks now).sameChains⟩
  | evictMarked owner needed now =>
    exact .of_keeps (fun stage hstage w hw => hw.same (evictStages_chains hstage w)) h
  | putSegment envelope => exact ⟨fun _ => h, fun _ => h.putSegment envelope⟩
  | forgetOwner owner =>
    have hafter : after v ((v.chunksFor owner).flatMap (removeStages owner)) = v.emptied owner :=
      after_removeStages owner _ v
    have hempty := h.same (emptied_chains v owner)
    have hchains := (after_midChains ((v.emptied owner).chainErasers owner) (v.emptied owner)).trans
      (foldl_chainErasers (v.emptied owner) owner)
    have hforgotten : (after (v.emptied owner)
        (midChains ((v.emptied owner).chainErasers owner))).ChainExact := by
      rw [hchains]
      exact hempty.forgotten rfl rfl
    refine (Along.of_keeps (fun stage hstage w hw => ?_) h).append ?_
    · obtain ⟨address, _, hstage⟩ := List.mem_flatMap.mp hstage
      exact hw.same (removeStages_chains hstage w)
    rw [hafter]
    refine Along.append ?_ (.of_keeps (fun stage hstage w hw => ?_) hforgotten)
    · -- only the first step may stop in good order, and then nothing is gone
      cases herasers : (v.emptied owner).chainErasers owner with
      | nil => exact fun _ => hempty
      | cons first rest =>
        rw [herasers] at hforgotten
        refine ⟨fun _ => hempty, .of_end (fun stage hstage hcover => ?_) hforgotten⟩
        obtain ⟨effect, _, rfl⟩ := List.mem_map.mp hstage
        exact hcover rfl
    · obtain ⟨effect, heffect, rfl⟩ := List.mem_map.mp hstage
      exact hw.same (lastErasers_chains heffect w)
  | checkDisk cursor limit =>
    refine ⟨fun _ => h, fun _ => h.same (.foldl (fun w key => ?_) (v.checkSlice cursor limit) v)⟩
    unfold dropIfGone
    split_ifs
    · exact ⟨rfl, rfl⟩
    · exact unindex_chains _ _ w

/-! ### Counting again -/

/-- The bytes of the blobs of each owner; an owner with none has no row. -/
def ownerTotals (blobs : Table (UserId ×ₗ ChunkId) Bytes) : Table UserId ℕ :=
  blobs.toList.foldl (fun totals r =>
    if r.2.length = 0 then totals
    else totals.insert (ofLex r.1).1 ((totals[(ofLex r.1).1]?).getD 0 + r.2.length)) ∅

/-- Write the totals of the blobs. -/
def retotal (v : Depot K) : Depot K :=
  { v with
    chunkBytes := v.blobs.weigh fun _ b => b.length
    ownerChunkBytes := ownerTotals v.blobs }

/-- The rows whose blob is gone. -/
def staleRows (v : Depot K) : List (UserId ×ₗ ChunkId) :=
  (v.chunks.toList.map Prod.fst).filter fun key => (v.blobs[key]?).isNone

/-- A row for each blob, and none without. -/
def reindexStages (v : Depot K) : List (VaultStage K) :=
  v.blobs.toList.map
    (fun r => ⟨.unsure, fun v => { v with chunks := v.chunks.insert r.1 r.2.length }⟩) ++
    v.staleRows.map fun key => ⟨.unsure, fun v => { v with chunks := v.chunks.erase key }⟩

/-- Make the index agree with the blobs, then the totals. -/
def reconcileStages (v : Depot K) : List (VaultStage K) := v.reindexStages ++ [⟨.unsure, retotal⟩]

/-- Total up the segments of a vault that never did. -/
def backfillSegmentBytes (v : Depot K) : Depot K :=
  if v.chainBytes.toList = [] ∧ v.segments.toList ≠ [] then
    { v with
      chainBytes := v.segments.toList.foldl (fun totals r =>
        let chain := Vault.chainKey (ofLex r.1).1 (ofLex (ofLex r.1).2).1
        totals.insert chain ((totals[chain]?).getD 0 + r.2.encodedLength)) ∅ }
  else v

omit [SealedLength K] in
theorem getElem?_ownerTotals (blobs : Table (UserId ×ₗ ChunkId) Bytes) (owner : UserId) :
    ((ownerTotals blobs)[owner]?).getD 0 =
      blobs.weigh fun key b => if (ofLex key).1 = owner then b.length else 0 := by
  have hfold : ∀ (rows : List ((UserId ×ₗ ChunkId) × Bytes)) (totals : Table UserId ℕ),
      ((rows.foldl (fun totals r =>
          if r.2.length = 0 then totals
          else totals.insert (ofLex r.1).1 ((totals[(ofLex r.1).1]?).getD 0 + r.2.length))
        totals)[owner]?).getD 0 =
        (totals[owner]?).getD 0 +
            (rows.map fun r => if (ofLex r.1).1 = owner then r.2.length else 0).sum := by
    intro rows
    induction rows with
    | nil => exact fun totals => (Nat.add_zero _).symm
    | cons r rows ih =>
      intro totals
      rw [List.foldl_cons, ih, List.map_cons, List.sum_cons, ← Nat.add_assoc]
      congr 1
      by_cases hzero : r.2.length = 0
      · rw [if_pos hzero, hzero, ite_self, Nat.add_zero]
      · rw [if_neg hzero, Table.getElem?_insert']
        by_cases howner : (ofLex r.1).1 = owner
        · rw [if_pos howner, if_pos howner, howner, Option.getD_some]
        · rw [if_neg howner, if_neg howner, Nat.add_zero]
  rw [ownerTotals, hfold blobs.toList ∅]
  exact Nat.zero_add _

omit [SealedLength K] in
theorem after_reindexStages (v : Depot K) :
    after v v.reindexStages =
      { v with
        chunks := v.staleRows.foldl (fun t key => t.erase key)
          (v.blobs.toList.foldl (fun t r => t.insert r.1 r.2.length) v.chunks) } := by
  have hinserted := foldl_part (fun v : Depot K => v.chunks) (fun t v => { v with chunks := t })
    (fun t (r : (UserId ×ₗ ChunkId) × Bytes) => t.insert r.1 r.2.length) (fun _ _ => rfl)
      (fun _ _ _ => rfl)
    (fun _ => rfl) v.blobs.toList v
  have herased := foldl_part (fun v : Depot K => v.chunks) (fun t v => { v with chunks := t })
    (fun t (key : UserId ×ₗ ChunkId) => t.erase key) (fun _ _ => rfl) (fun _ _ _ => rfl) (fun _ => rfl)
    v.staleRows
  rw [reindexStages, after_append, after, after, List.foldl_map, List.foldl_map]
  rw [hinserted, herased]

omit [SealedLength K] in
/-- The rows after that, whatever they were. -/
theorem chunks_reindexed (v : Depot K) (key : UserId ×ₗ ChunkId) :
    (after v v.reindexStages).chunks[key]? = (v.blobs[key]?).map List.length := by
  rw [after_reindexStages]
  dsimp only
  rw [Table.getElem?_foldl_erase]
  cases hblob : v.blobs[key]? with
  | some b =>
    have hkept : key ∉ v.staleRows := by
      intro hmem
      have hnone := (List.mem_filter.mp hmem).2
      rw [hblob] at hnone
      cases hnone
    rw [if_neg hkept]
    exact Table.getElem?_foldl_insert_of_mem List.length _ _ (Table.toList_pairwise v.blobs)
      (Table.mem_toList.mpr hblob)
  | none =>
    have hnot : key ∉ v.blobs.toList.map Prod.fst := by
      intro hmem
      obtain ⟨r, hr, rfl⟩ := List.mem_map.mp hmem
      rw [Table.mem_toList.mp hr] at hblob
      cases hblob
    have hold := Table.getElem?_foldl_insert_of_notMem List.length v.blobs.toList v.chunks hnot
    cases hrow : v.chunks[key]? with
    | none =>
      rw [hold, hrow, ite_self]
      rfl
    | some size =>
      have hstale : key ∈ v.staleRows :=
        List.mem_filter.mpr
          ⟨List.mem_map.mpr ⟨(key, size), Table.mem_toList.mpr hrow, rfl⟩, by rw [hblob]; rfl⟩
      rw [if_pos hstale]
      rfl

omit [SealedLength K] in
/-- **Counting again** sets index and totals right, whatever they were. -/
theorem reconcile_ok (v : Depot K) : (after v v.reconcileStages).Ok := by
  have hrows : ∀ key : UserId ×ₗ ChunkId, (after v v.reindexStages).chunks[key]? =
      ((after v v.reindexStages).blobs[key]?).map List.length := by
    intro key
    rw [chunks_reindexed, after_reindexStages]
  rw [reconcileStages, after_append]
  refine ⟨hrows, ?_, fun owner => ?_⟩
  · exact (Table.weigh_map List.length hrows fun _ size => size).symm
  · refine (getElem?_ownerTotals _ owner).trans ?_
    exact (Table.weigh_map List.length hrows fun key size =>
      if (ofLex key).1 = owner then size else 0).symm

/-- Counting again leaves the chains alone, wherever it stops. -/
theorem ChainExact.reconcile (h : v.ChainExact) :
    Along .plain ChainExact (fun _ => True) v v.reconcileStages := by
  refine .of_keeps (fun stage hstage w hw => hw.same ?_) h
  simp only [reconcileStages, reindexStages, List.mem_append, List.mem_map, List.mem_singleton] at hstage
  obtain (⟨r, _, rfl⟩ | ⟨key, _, rfl⟩) | rfl := hstage
  all_goals exact ⟨rfl, rfl⟩

/-- Chains that are charged need no backfill. -/
theorem ChainExact.backfill (h : v.ChainExact) : v.backfillSegmentBytes = v := by
  rw [backfillSegmentBytes, if_neg]
  rintro ⟨hbytes, hsegments⟩
  have hzero := h.bytes fun _ => true
  rw [Table.weigh, Table.weigh, hbytes, List.map_nil, List.sum_nil] at hzero
  obtain ⟨r, rest, hrows⟩ := List.exists_cons_of_ne_nil hsegments
  rw [hrows, List.map_cons, List.sum_cons, if_pos rfl] at hzero
  have hpos := r.2.bodyLength_lt_encodedLength
  omega

end Depot

/-! ### A vault that is opened, used and closed -/

open Depot

/-- A vault with what is on its disk about it and what its process knows. -/
structure VaultWorld (K : Crypto) where
  vault : Depot K
  /-- The mark of a vault that is open, or was not closed cleanly. -/
  openMark : Bool
  /-- Whether totals were ever written. -/
  totalled : Bool
  running : Bool
  /-- Whether a call stopped with a blob and its row apart. -/
  suspect : Bool
  /-- Whether a call failed since the last open. -/
  failed : Bool

namespace VaultWorld

variable [SealedLength K]

def start : VaultWorld K := ⟨.new, false, false, false, false, false⟩

inductive Move (K : Crypto)
  | runs (op : VaultOp K)
  /-- A call fails before its step `k`. -/
  | fails (op : VaultOp K) (k : ℕ)
  /-- The process dies there. -/
  | crashes (op : VaultOp K) (k : ℕ)
  | closes
  | opens
  /-- An open that fails, or dies, before its step `k`. -/
  | openFails (k : ℕ)

/-- Whether an open counts the blobs again. -/
def reconciles (w : VaultWorld K) : Bool := w.openMark || !w.totalled

def openStages (w : VaultWorld K) : List (VaultStage K) :=
  (if w.reconciles then w.vault.reconcileStages else []) ++ [⟨.unsure, backfillSegmentBytes⟩]

def step (w : VaultWorld K) : Move K → VaultWorld K
  | .runs op => if w.running then { w with vault := after w.vault (w.vault.stages op) } else w
  | .fails op k =>
    if w.running then
      { w with
        vault := after w.vault ((w.vault.stages op).take k)
        suspect := w.suspect || decide (coverAt .plain (w.vault.stages op) k = .unsure)
        failed := true }
    else w
  | .crashes op k =>
    if w.running then { w with vault := after w.vault ((w.vault.stages op).take k), running :=
      false } else w
  | .closes => if w.running then { w with running := false, openMark := w.suspect } else w
  | .opens =>
    if w.running then w
    else ⟨after w.vault w.openStages, true, true, true, false, false⟩
  | .openFails k =>
    if w.running then w
    else
      { w with
        vault := after w.vault (w.openStages.take k)
        totalled := w.totalled || (w.reconciles && decide (w.vault.reconcileStages.length ≤ k)) }

def run (w : VaultWorld K) (moves : List (Move K)) : VaultWorld K := moves.foldl step w

/-- The call does not stop in the middle of taking out chains. -/
def Whole (w : VaultWorld K) : Move K → Prop
  | .fails op k => coverAt .plain (w.vault.stages op) k ≠ .midChains
  | .crashes op k => coverAt .plain (w.vault.stages op) k ≠ .midChains
  | _ => True

instance decidableWhole (w : VaultWorld K) : (move : Move K) → Decidable (w.Whole move)
  | .fails op k => inferInstanceAs (Decidable (coverAt .plain (w.vault.stages op) k ≠ .midChains))
  | .crashes op k => inferInstanceAs (Decidable (coverAt .plain (w.vault.stages op) k ≠ .midChains))
  | .runs _ => isTrue trivial
  | .closes => isTrue trivial
  | .opens => isTrue trivial
  | .openFails _ => isTrue trivial

def WholeRun (w : VaultWorld K) : List (Move K) → Prop
  | [] => True
  | move :: rest => w.Whole move ∧ (w.step move).WholeRun rest

structure Inv (w : VaultWorld K) : Prop where
  chains : w.vault.ChainExact
  opened : w.running = true → w.openMark = true
  sure : w.running = true → w.suspect = false → w.vault.Ok
  unfailed : w.running = true → w.failed = false → w.suspect = false
  closed : w.running = false → w.openMark = false → w.totalled = true → w.vault.Ok

theorem Inv.start : (start : VaultWorld K).Inv :=
  ⟨.new, nofun, nofun, nofun, fun _ _ _ => new_ok⟩

/-- The chains are charged wherever an open stops, and it does nothing but count again. -/
theorem after_openStages {w : VaultWorld K} (h : w.vault.ChainExact) (k : ℕ) :
    (after w.vault (w.openStages.take k)).ChainExact ∧
      after w.vault (w.openStages.take k) =
        if w.reconciles then after w.vault (w.vault.reconcileStages.take k) else w.vault := by
  have hreconciled : (after w.vault (w.vault.reconcileStages.take k)).ChainExact :=
    h.reconcile.at trivial
  have hlast : ∀ {v : Depot K} (n : ℕ), v.ChainExact →
      after v ([(⟨.unsure, backfillSegmentBytes⟩ : VaultStage K)].take n) = v := by
    intro v n hv
    cases n with
    | zero => rfl
    | succ n =>
      rw [List.take_succ_cons, List.take_nil]
      exact hv.backfill
  rw [openStages, List.take_append, after_append]
  split_ifs
  · rw [hlast _ hreconciled]
    exact ⟨hreconciled, rfl⟩
  · have hnone : after w.vault ([] : List (VaultStage K)) = w.vault := rfl
    rw [List.take_nil, hnone, hlast _ h]
    exact ⟨h, rfl⟩

/-- **One move.** -/
theorem Inv.step {w : VaultWorld K} (h : w.Inv) {move : Move K}
    (hwhole : w.Whole move) : (w.step move).Inv := by
  cases move with
  | runs op =>
    rw [VaultWorld.step]
    split_ifs with hrunning
    · exact ⟨(h.chains.stages op).atEnd (by simp), h.opened,
        fun hr hs => ((h.sure hr hs).stages op).atEnd rfl, h.unfailed,
          fun hr => by rw [hrunning] at hr; cases hr⟩
    · exact h
  | fails op k =>
    rw [VaultWorld.step]
    split_ifs with hrunning
    · refine ⟨(h.chains.stages op).at hwhole, h.opened, fun hr hs => ?_, (by simp),
        fun hr => by rw [hrunning] at hr; cases hr⟩
      obtain ⟨hs, hcover⟩ := Bool.or_eq_false_iff.mp hs
      have hplain : coverAt .plain (w.vault.stages op) k = .plain := by
        cases hat : coverAt .plain (w.vault.stages op) k with
        | plain => rfl
        | unsure => exact absurd hat (of_decide_eq_false hcover)
        | midChains => exact absurd hat hwhole
      exact ((h.sure hr hs).stages op).at hplain
    · exact h
  | crashes op k =>
    rw [VaultWorld.step]
    split_ifs with hrunning
    · exact ⟨(h.chains.stages op).at hwhole, (by simp), (by simp), (by simp),
        fun _ hmark => by rw [h.opened hrunning] at hmark; cases hmark⟩
    · exact h
  | closes =>
    rw [VaultWorld.step]
    split_ifs with hrunning
    · exact ⟨h.chains, (by simp), (by simp), (by simp), fun _ hs _ => h.sure hrunning hs⟩
    · exact h
  | opens =>
    rw [VaultWorld.step]
    split_ifs with hrunning
    · exact h
    obtain ⟨hchains, hafter⟩ := after_openStages h.chains w.openStages.length
    rw [List.take_length] at hchains hafter
    refine ⟨hchains, fun _ => rfl, fun _ _ => ?_, fun _ _ => rfl, (by simp)⟩
    show (after w.vault w.openStages).Ok
    rw [hafter]
    split_ifs with hreconciles
    · rw [List.take_of_length_le (by simp [openStages, hreconciles])]
      exact reconcile_ok w.vault
    · rw [Bool.not_eq_true, reconciles, Bool.or_eq_false_iff, Bool.not_eq_false'] at hreconciles
      exact h.closed (Bool.not_eq_true _ ▸ hrunning) hreconciles.1 hreconciles.2
  | openFails k =>
    rw [VaultWorld.step]
    split_ifs with hrunning
    · exact h
    obtain ⟨hchains, hafter⟩ := after_openStages h.chains k
    refine ⟨hchains, fun hr => absurd hr hrunning, fun hr => absurd hr hrunning, fun hr =>
      absurd hr hrunning,
      fun hr hmark htotalled => ?_⟩
    show (after w.vault (w.openStages.take k)).Ok
    rw [hafter]
    split_ifs with hreconciles
    · -- the mark is clean, so it is the totals that were missing, and they are written last
      have hmissing : w.totalled = false := by
        simpa [reconciles, show w.openMark = false from hmark] using hreconciles
      have hdone : w.vault.reconcileStages.length ≤ k := by
        simpa [hmissing, hreconciles] using htotalled
      rw [List.take_of_length_le hdone]
      exact reconcile_ok w.vault
    · rw [Bool.not_eq_true, reconciles, Bool.or_eq_false_iff, Bool.not_eq_false'] at hreconciles
      exact h.closed hr hmark hreconciles.2

/-- **The totals are true.** Calls may fail and the process may die at any step, as long as no
`forget_owner` stops between its first and its last removal of chain rows. Then whenever the
vault is open and nothing has failed since it was opened, what it says it holds, in all and for
each owner, is what its blobs and segments come to, and its index has a row exactly for each
blob. -/
theorem totals_true {moves : List (Move K)} (hwhole : (start : VaultWorld K).WholeRun moves)
    (hrunning : (start.run moves).running = true) (hfailed : (start.run moves).failed = false) :
    (start.run moves).vault.heldBytes =
        ((start.run moves).vault.blobs.weigh fun _ b => b.length) +
          (start.run moves).vault.segments.weigh (fun _ e => e.encodedLength) ∧
      (∀ owner, (start.run moves).vault.heldBytesFor owner =
        ((start.run moves).vault.blobs.weigh fun key b =>
          if (ofLex key).1 = owner then b.length else 0) +
          (start.run moves).vault.segments.weigh fun key e =>
            if (ofLex key).1 = owner then e.encodedLength else 0) ∧
      ∀ key : UserId ×ₗ ChunkId, (start.run moves).vault.chunks[key]? =
        ((start.run moves).vault.blobs[key]?).map List.length := by
  have hrun : ∀ (moves : List (Move K)) (w : VaultWorld K), w.Inv → w.WholeRun moves →
      (w.run moves).Inv := by
    intro moves
    induction moves with
    | nil => exact fun _ h _ => h
    | cons move rest ih => exact fun w h hw => ih (w.step move) (h.step hw.1) hw.2
  have hinv := hrun moves start .start hwhole
  generalize start.run moves = w at hrunning hfailed hinv ⊢
  have hok := hinv.sure hrunning (hinv.unfailed hrunning hfailed)
  refine ⟨?_, fun owner => ?_, hok.sizes⟩
  · have hchains := hinv.chains.bytes fun _ => true
    rw [hok.heldBytes_eq, Table.weigh_map List.length hok.sizes fun _ size => size]
    exact congrArg _ hchains
  · have hchains := hinv.chains.bytes fun o => o = owner
    simp only [decide_eq_true_eq] at hchains
    rw [hok.heldBytesFor_eq, sizesOf, hchains,
      Table.weigh_map List.length hok.sizes fun key size => if (ofLex key).1 = owner then size else 0]

/-- A chunk whose row was not written, a call that dies half way, and a new start. -/
def mended : List (Move symbolic) :=
  [.opens, .runs (.putSegment (signed 1 1 4 none)), .fails (.putChunk 7 9 [1, 2, 3]) 2,
    .crashes (.forgetOwner 8) 0, .opens]

theorem totals_true_mended :
    (start.run mended).vault.heldBytes =
        ((start.run mended).vault.blobs.weigh fun _ b => b.length) +
          (start.run mended).vault.segments.weigh (fun _ e => e.encodedLength) ∧
      ((start.run mended).vault.blobs.weigh fun _ b => b.length) = 3 := by
  have hwhole : (start : VaultWorld symbolic).WholeRun mended :=
    ⟨trivial, trivial, by decide +kernel, by decide +kernel, trivial, trivial⟩
  exact ⟨(totals_true hwhole (by decide +kernel) (by decide +kernel)).1, by decide +kernel⟩

/-- The process dies when `forget_owner` has taken out the one segment of an account. The next
open finds nothing to count, and the bytes stay charged. -/
def cutOff : List (Move symbolic) :=
  [.opens, .runs (.putSegment (signed 1 1 4 none)), .crashes (.forgetOwner 7) 2, .opens]

theorem forget_cut_off :
    (start.run cutOff).running = true ∧ (start.run cutOff).failed = false ∧
      (start.run cutOff).vault.blobs.toList = [] ∧ (start.run cutOff).vault.segments.toList.length =
        0 ∧
      0 < (start.run cutOff).vault.heldBytes ∧ 0 < (start.run cutOff).vault.heldBytesFor 7 := by
  decide +kernel

end VaultWorld

end Itsanas
