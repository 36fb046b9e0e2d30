/-
# Chunks an owner can spare

The marks of `itsanas-store/src/vault.rs`: which chunks an owner can spare, and in which order.
They are in two tables, by chunk and by time, beside the index of chunks. Calls change the three
together, and a call that stops does so between two changes. What a call does to them is said once
(`Touch`), and read off from there: a mark has its row in the index (`Rowed`), the two tables are
one relation (`Paired`), the totals are those of the index (`Totalled`).

Two places do not change the tables together. The rebuild after an unclean stop drops the rows of
blobs that are gone and leaves their marks; and forgetting an owner takes what marks are then left
out of one table before the other. So a mark may be left on a chunk that is gone, and later be found
on a new copy of it (`VaultWorld.marks_left_behind`). Where neither happens the marks are one
relation about chunks that are held (`VaultWorld.marks_one_relation`).
-/
import Itsanas.Totals

namespace Itsanas

open Stages

variable {K : Crypto} {owner : UserId} {v : Depot K} {address : ChunkId} {key : UserId ×ₗ ChunkId}

variable {chunks : List ChunkId} {k : ℕ}

namespace Depot

/-! ### What a step does -/

/-- Rows, marks and counts are as they were, and no blob has come. -/
structure Untouched (v v' : Depot K) : Prop where
  chunks : v'.chunks = v.chunks
  total : v'.chunkBytes = v.chunkBytes
  owners : v'.ownerChunkBytes = v.ownerChunkBytes
  evictable : v'.evictable = v.evictable
  evictionOrder : v'.evictionOrder = v.evictionOrder
  evictQuota : v'.evictQuota = v.evictQuota
  blobs : ∀ key : UserId ×ₗ ChunkId, v.blobs[key]? = none → v'.blobs[key]? = none

/-- Take a chunk out of the index, and its mark with it. -/
def unindex (owner : UserId) (address : ChunkId) (v : Depot K) : Depot K :=
  (dropRow owner address v).unmark owner address

/-- What a call may do to rows, marks and counts, a step or a part of one. -/
inductive Touch : VaultOp K → Depot K → Depot K → Prop
  | untouched {op : VaultOp K} {v v' : Depot K} (h : Untouched v v') : Touch op v v'
  | unindex {op : VaultOp K} (owner : UserId) (address : ChunkId) (v : Depot K) :
    Touch op v (unindex owner address v)
  | writeBlob (owner : UserId) (address : ChunkId) (sealed : Bytes) (v : Depot K) :
    Touch (.putChunk owner address sealed) v (writeBlob owner address sealed v)
  | indexChunk (owner : UserId) (address : ChunkId) (sealed : Bytes) (v : Depot K) :
    Touch (.putChunk owner address sealed) v (indexChunk owner address v)
  | mark (owner : UserId) (chunks : List ChunkId) (now : ℕ) (v : Depot K) :
    Touch (.markEvictable owner chunks now) v (v.markEvictable owner chunks now).1
  | prune (owner : UserId) (needed now : ℕ) (mark : ℕ × ChunkId) (v : Depot K) :
    Touch (.evictMarked owner needed now) v (dropMark owner v mark)
  | evict (owner : UserId) (needed now : ℕ) (mark : ℕ × ChunkId) (v : Depot K) :
    Touch (.evictMarked owner needed now) v (dropMark owner (dropRow owner mark.2 v) mark)
  | clearMark (owner : UserId) (key : UserId ×ₗ ChunkId) (v : Depot K) :
    Touch (.forgetOwner owner) v { v with evictable := v.evictable.erase key }
  | clearOrder (owner : UserId) (key : UserId ×ₗ ℕ ×ₗ ChunkId) (v : Depot K) :
    Touch (.forgetOwner owner) v { v with evictionOrder := v.evictionOrder.erase key }
  | clearQuota (owner : UserId) (v : Depot K) :
    Touch (.forgetOwner owner) v { v with evictQuota := v.evictQuota.erase owner }

/-- Some of what a call may do, one after another. -/
abbrev Touches (op : VaultOp K) : Depot K → Depot K → Prop := Relation.ReflTransGen (Touch op)

theorem Untouched.refl (v : Depot K) : Untouched v v := ⟨rfl, rfl, rfl, rfl, rfl, rfl, fun _ => id⟩

theorem untouched_eraseBlob (v : Depot K) (key : UserId ×ₗ ChunkId) :
    Untouched v { v with blobs := v.blobs.erase key } :=
  ⟨rfl, rfl, rfl, rfl, rfl, rfl, fun key' h => by rw [Table.getElem?_erase', h, ite_self]⟩

variable {op : VaultOp K}

theorem touches_foldl {α : Type} {f : Depot K → α → Depot K} (hf : ∀ v x, Touch op v (f v x))
    (l : List α) (v : Depot K) : Touches op v (l.foldl f v) :=
  List.foldlRecOn (motive := Touches op v) l f .refl fun _ hw x _ => hw.tail (hf _ x)

variable {stage : VaultStage K}

theorem touch_removeStages
    (h : stage ∈ removeStages owner address) (w : Depot K) : Touch op w (stage.effect w) := by
  simp only [removeStages, List.mem_cons, List.not_mem_nil, or_false] at h
  obtain rfl | rfl := h
  · exact .untouched (untouched_eraseBlob w _)
  · exact .unindex owner address w

theorem untouched_chainErasers {effect : Depot K → Depot K}
    (h : effect ∈ v.chainErasers owner) (w : Depot K) : Untouched w (effect w) := by
  simp only [chainErasers, List.mem_append, List.mem_map] at h
  obtain ((⟨key, _, rfl⟩ | ⟨key, _, rfl⟩) | ⟨key, _, rfl⟩) | ⟨key, _, rfl⟩ := h
  all_goals exact ⟨rfl, rfl, rfl, rfl, rfl, rfl, fun _ => id⟩

theorem touch_lastErasers {effect : Depot K → Depot K}
    (h : effect ∈ v.lastErasers owner) (w : Depot K) : Touch (.forgetOwner owner) w (effect w) := by
  simp only [lastErasers, List.mem_append, List.mem_cons, List.mem_map] at h
  obtain (⟨key, _, rfl⟩ | ⟨key, _, rfl⟩) | rfl | ⟨key, _, rfl⟩ := h
  · exact .clearMark owner key w
  · exact .clearOrder owner key w
  · exact .clearQuota owner w
  · exact .untouched (untouched_eraseBlob w key)

theorem touches_evictStages {needed now : ℕ}
    (h : stage ∈ v.evictStages owner needed now) (w : Depot K) :
    Touches (.evictMarked owner needed now) w (stage.effect w) := by
  unfold evictStages at h
  split_ifs at h
  · cases h
  generalize v.chooseEvictions owner needed now [] [] 0 (v.marksOf owner) = choice at h
  obtain ⟨chosen, expired, room⟩ := choice
  obtain h | h := List.mem_append.mp h
  · split_ifs at h
    · cases h
    · obtain rfl := List.mem_singleton.mp h
      exact touches_foldl (fun v mark => .prune owner needed now mark v) expired w
  · split_ifs at h
    · cases h
    · simp only [List.mem_append, List.mem_map, List.mem_singleton] at h
      obtain ⟨mark, _, rfl⟩ | rfl := h
      · exact .single (.untouched (untouched_eraseBlob w _))
      · exact touches_foldl (fun v mark => .evict owner needed now mark v) chosen w

theorem touch_dropIfGone (v : Depot K) (key : UserId ×ₗ ChunkId) : Touch op v (dropIfGone v key) := by
  unfold dropIfGone
  split_ifs
  · exact .untouched (.refl v)
  · exact .unindex (ofLex key).1 (ofLex key).2 v

variable [SealedLength K]

theorem untouched_putSegment (v : Depot K) (envelope : SegmentEnvelope K) :
    Untouched v (v.putSegment envelope).1 := by
  unfold Depot.putSegment
  split <;> exact ⟨rfl, rfl, rfl, rfl, rfl, rfl, fun _ => id⟩

theorem touches_steps (h : stage ∈ v.steps op) (w : Depot K) :
    Touches op w (stage.effect w) := by
  cases op with
  | putChunk owner address sealed =>
    simp only [steps, List.mem_cons, List.not_mem_nil, or_false] at h
    obtain rfl | rfl := h
    · exact .single (.writeBlob owner address sealed w)
    · exact .single (.indexChunk owner address sealed w)
  | removeChunk owner address => exact .single (touch_removeStages h w)
  | markEvictable owner chunks now =>
    obtain rfl := List.mem_singleton.mp h
    exact .single (.mark owner chunks now w)
  | evictMarked owner needed now => exact touches_evictStages h w
  | putSegment envelope =>
    obtain rfl := List.mem_singleton.mp h
    exact .single (.untouched (untouched_putSegment w envelope))
  | forgetOwner owner =>
    simp only [steps, forgetStages, List.mem_append, List.mem_flatMap, List.mem_map] at h
    obtain ⟨address, _, h⟩ | h | ⟨effect, h, rfl⟩ := h
    · exact .single (touch_removeStages h w)
    · exact .single (.untouched (untouched_chainErasers (mem_midChains h) w))
    · exact .single (touch_lastErasers h w)
  | checkDisk cursor limit =>
    obtain rfl := List.mem_singleton.mp h
    exact touches_foldl (fun v key => touch_dropIfGone v key) (w.checkSlice cursor limit) w

/-- **A call, wherever it stops**, has done some of what it may do. -/
theorem touch_after (v : Depot K) (op : VaultOp K) (k : ℕ) :
    Touches op v (after v ((v.stages op).take k)) := by
  refine List.foldlRecOn (motive := Touches op v) _ _ .refl fun w hw stage hstage => hw.trans ?_
  obtain rfl | hstep := List.mem_cons.mp (List.mem_of_mem_take hstage)
  · exact .refl
  · exact touches_steps hstep w

omit [SealedLength K] in
/-- What all it may do keeps, it keeps. -/
theorem Touches.keeps {P : Depot K → Prop} (hkeeps : ∀ {v v'}, Touch op v v' → P v → P v')
    {v v' : Depot K} (h : Touches op v v') (hv : P v) : P v' := by
  induction h with
  | refl => exact hv
  | tail _ hstep ih => exact hkeeps hstep ih

/-! ### Rows and marks -/

/-- Every mark is on a chunk of the index. -/
def Rowed (v : Depot K) : Prop :=
  ∀ key : UserId ×ₗ ChunkId, (v.evictable[key]?).isSome → (v.chunks[key]?).isSome

/-- One order row for each mark, with its owner, time and chunk, and no other. -/
def Paired (v : Depot K) : Prop :=
  ∀ (owner : UserId) (at' : ℕ) (chunk : ChunkId),
    v.evictable[chunkKey owner chunk]? = some at' ↔ (v.evictionOrder[orderKey owner at' chunk]?).isSome

section Marks

omit [SealedLength K]

variable {v v' : Depot K}

theorem chunkKey_inj {owner owner' : UserId} {chunk chunk' : ChunkId}
    (h : chunkKey owner chunk = chunkKey owner' chunk') : owner = owner' ∧ chunk = chunk' := by
  cases h
  exact ⟨rfl, rfl⟩

theorem orderKey_inj {owner owner' : UserId} {at₁ at₂ : ℕ} {chunk chunk' : ChunkId}
    (h : orderKey owner at₁ chunk = orderKey owner' at₂ chunk') :
    owner = owner' ∧ at₁ = at₂ ∧ chunk = chunk' := by
  cases h
  exact ⟨rfl, rfl, rfl⟩

theorem new_paired : (new : Depot K).Paired := fun _ _ _ => ⟨nofun, nofun⟩

theorem new_rowed : (new : Depot K).Rowed := fun _ h => nomatch h

theorem unmark_of_none (h : v.evictable[chunkKey owner address]? = none) :
    v.unmark owner address = v := by
  unfold unmark
  rw [h]

theorem unmark_of_some {at' : ℕ}
    (h : v.evictable[chunkKey owner address]? = some at') :
    v.unmark owner address = dropMark owner v (at', address) := by
  unfold unmark
  rw [h]
  rfl

theorem evictable_unmark (v : Depot K) (owner : UserId) (address : ChunkId) (key : UserId ×ₗ ChunkId) :
    (v.unmark owner address).evictable[key]? =
      if chunkKey owner address = key then none else v.evictable[key]? := by
  cases hmark : v.evictable[chunkKey owner address]? with
  | none =>
    rw [unmark_of_none hmark]
    split_ifs with hkey
    · rw [← hkey, hmark]
    · rfl
  | some at' =>
    rw [unmark_of_some hmark]
    exact Table.getElem?_erase' ..

theorem chunks_dropRow (owner : UserId) (address : ChunkId) (v : Depot K) :
    (dropRow owner address v).chunks = v.chunks.erase (chunkKey owner address) := by
  unfold dropRow
  dsimp only
  split <;> rfl

/-- Taking out a row changes no mark. -/
theorem marks_dropRow (owner : UserId) (address : ChunkId) (v : Depot K) :
    (dropRow owner address v).evictable = v.evictable ∧ (dropRow owner address v).evictionOrder =
      v.evictionOrder ∧
      (dropRow owner address v).evictQuota = v.evictQuota ∧ (dropRow owner address v).blobs =
        v.blobs := by
  unfold dropRow
  dsimp only
  split <;> exact ⟨rfl, rfl, rfl, rfl⟩

theorem chunks_unindex (owner : UserId) (address : ChunkId) (v : Depot K) :
    (unindex owner address v).chunks = v.chunks.erase (chunkKey owner address) :=
  (unmark_same _ owner address).chunks.trans (chunks_dropRow owner address v)

/-- Dropping a mark from both tables, where it is the one there is. -/
theorem Paired.dropMark (h : v.Paired) {mark : ℕ × ChunkId}
    (hmark : ∀ at', v.evictable[chunkKey owner mark.2]? = some at' → at' = mark.1) :
    (dropMark owner v mark).Paired := by
  intro owner' at' chunk
  show (v.evictable.erase (chunkKey owner mark.2))[chunkKey owner' chunk]? = some at' ↔
    ((v.evictionOrder.erase (orderKey owner mark.1 mark.2))[orderKey owner' at' chunk]?).isSome
  rw [Table.getElem?_erase', Table.getElem?_erase']
  by_cases hkey : chunkKey owner mark.2 = chunkKey owner' chunk
  · obtain ⟨rfl, rfl⟩ := chunkKey_inj hkey
    rw [if_pos rfl]
    refine ⟨(by simp), fun horder => ?_⟩
    split_ifs at horder with hsame
    · cases horder
    · have hat := hmark at' ((h _ _ _).mpr horder)
      exact absurd (by rw [hat]) hsame
  · have horder : orderKey owner mark.1 mark.2 ≠ orderKey owner' at' chunk := by
      intro heq
      obtain ⟨rfl, -, hchunk⟩ := orderKey_inj heq
      exact hkey (by rw [hchunk])
    rw [if_neg hkey, if_neg horder]
    exact h owner' at' chunk

theorem Paired.unmark (h : v.Paired) (owner : UserId) (address : ChunkId) :
    (v.unmark owner address).Paired := by
  cases hmark : v.evictable[chunkKey owner address]? with
  | none => rwa [unmark_of_none hmark]
  | some at' =>
    rw [unmark_of_some hmark]
    refine h.dropMark fun at₂ hat => ?_
    rw [hmark] at hat
    cases hat
    rfl

/-- The same marks are as much one relation. -/
theorem Paired.congr (h : v.Paired) (hmarks : v'.evictable = v.evictable)
    (horder : v'.evictionOrder = v.evictionOrder) : v'.Paired := by
  intro owner at' chunk
  rw [hmarks, horder]
  exact h owner at' chunk

theorem Paired.markOne {s : Depot K × ℕ × ℕ} (h : s.1.Paired) (owner : UserId) (now : ℕ)
    (chunk : ChunkId) :
    (markOne owner now s chunk).1.Paired := by
  unfold Depot.markOne
  dsimp only
  split_ifs with hmarked hrow
  · exact h
  · exact h
  intro owner' at' chunk'
  show (s.1.evictable.insert (chunkKey owner chunk) now)[chunkKey owner' chunk']? = some at' ↔
    ((s.1.evictionOrder.insert (orderKey owner now chunk) ())[orderKey owner' at' chunk']?).isSome
  rw [Table.getElem?_insert', Table.getElem?_insert']
  by_cases hkey : chunkKey owner chunk = chunkKey owner' chunk'
  · obtain ⟨rfl, rfl⟩ := chunkKey_inj hkey
    rw [if_pos rfl]
    constructor
    · intro hat
      cases hat
      rw [if_pos rfl]
      rfl
    · intro horder
      split_ifs at horder with hsame
      · rw [(orderKey_inj hsame).2.1]
      · -- without a mark there was no order row either
        have hold := (h owner at' chunk).mpr horder
        rw [hold] at hmarked
        exact absurd rfl hmarked
  · have horder : orderKey owner now chunk ≠ orderKey owner' at' chunk' := by
      intro heq
      obtain ⟨rfl, -, rfl⟩ := orderKey_inj heq
      exact hkey rfl
    rw [if_neg hkey, if_neg horder]
    exact h owner' at' chunk'

/-- A property that marking one chunk keeps, and the count does not matter for. -/
theorem markEvictable_keeps {P : Depot K → Prop}
    (hone : ∀ (owner : UserId) (now : ℕ) (s : Depot K × ℕ × ℕ) (chunk : ChunkId), P s.1 →
      P (markOne owner now s chunk).1)
    (hquota : ∀ (v : Depot K) (quota : Table UserId (ℕ × ℕ)), P v → P { v with evictQuota := quota })
    (h : P v) (owner : UserId) (chunks : List ChunkId) (now : ℕ) :
    P (v.markEvictable owner chunks now).1 := by
  have hfold : ∀ (chunks : List ChunkId) (s : Depot K × ℕ × ℕ), P s.1 →
      P (chunks.foldl (markOne owner now) s).1 := by
    intro chunks
    induction chunks with
    | nil => exact fun s hs => hs
    | cons chunk rest ih => exact fun s hs => ih _ (hone owner now s chunk hs)
  unfold markEvictable
  exact hquota _ _ (hfold _ (v, _, 0) h)

theorem Paired.markEvictable (h : v.Paired) (owner : UserId) (chunks : List ChunkId) (now : ℕ) :
    (v.markEvictable owner chunks now).1.Paired :=
  markEvictable_keeps (fun owner now _ chunk hs => hs.markOne owner now chunk) (fun _ _ hs => hs) h
    owner chunks now

theorem Paired.unindex (h : v.Paired) (owner : UserId) (address : ChunkId) :
    (unindex owner address v).Paired :=
  (h.congr (marks_dropRow owner address v).1 (marks_dropRow owner address v).2.1).unmark owner address

theorem Paired.indexChunk (h : v.Paired) (owner : UserId) (address : ChunkId) :
    (indexChunk owner address v).Paired := by
  refine Paired.unmark ?_ owner address
  exact h.congr rfl rfl

/-- The calls whose every step changes the two tables of marks together. -/
def VaultOp.together : VaultOp K → Bool
  | .evictMarked _ _ _ | .forgetOwner _ => false
  | _ => true

theorem Paired.touch (hop : op.together = true) (h : Touch op v v') (hv : v.Paired) : v'.Paired := by
  cases h with
  | untouched h => exact hv.congr h.evictable h.evictionOrder
  | unindex owner address => exact hv.unindex owner address
  | writeBlob owner address sealed => exact hv.congr rfl rfl
  | indexChunk owner address sealed => exact hv.indexChunk owner address
  | mark owner chunks now => exact hv.markEvictable owner chunks now
  | prune owner needed now mark => cases hop
  | evict owner needed now mark => cases hop
  | clearMark owner key => cases hop
  | clearOrder owner key => cases hop
  | clearQuota owner => cases hop

/-- Fewer marks and no fewer rows, or not where there is a mark. -/
theorem Rowed.mono (h : v.Rowed) (hmarks : ∀ key : UserId ×ₗ ChunkId, (v'.evictable[key]?).isSome →
    (v.evictable[key]?).isSome ∧ ((v.chunks[key]?).isSome → (v'.chunks[key]?).isSome)) : v'.Rowed := by
  intro key hkey
  obtain ⟨hold, hrow⟩ := hmarks key hkey
  exact hrow (h key hold)

theorem Rowed.markOne {s : Depot K × ℕ × ℕ} (h : s.1.Rowed) (owner : UserId) (now : ℕ)
    (chunk : ChunkId) :
    (markOne owner now s chunk).1.Rowed := by
  unfold Depot.markOne
  dsimp only
  split_ifs with hmarked hrow
  · exact h
  · exact h
  intro key hkey
  have hmark : ((s.1.evictable.insert (chunkKey owner chunk) now)[key]?).isSome := hkey
  show (s.1.chunks[key]?).isSome
  rw [Table.getElem?_insert'] at hmark
  split_ifs at hmark with hsame
  · rw [← hsame, ← Option.not_isNone, Bool.not_eq_true']
    exact Bool.eq_false_iff.mpr fun hnone => hrow (.inl hnone)
  · exact h key hmark

theorem isSome_of_erase {t : Table (UserId ×ₗ ChunkId) ℕ} {key key' : UserId ×ₗ ChunkId}
    (h : ((t.erase key)[key']?).isSome) : key ≠ key' ∧ (t[key']?).isSome := by
  rw [Table.getElem?_erase'] at h
  split_ifs at h with hkey
  · cases h
  · exact ⟨hkey, h⟩

/-- A row may go with its mark. -/
theorem Rowed.dropped (h : v.Rowed) (hmarks : ∀ key' : UserId ×ₗ ChunkId,
    v'.evictable[key']? = if key = key' then none else v.evictable[key']?)
    (hrows : v'.chunks = v.chunks.erase key) : v'.Rowed := by
  refine h.mono fun key' hkey => ?_
  rw [hmarks] at hkey
  split_ifs at hkey with hsame
  · cases hkey
  · rw [hrows, Table.getElem?_erase_ne _ hsame]
    exact ⟨hkey, id⟩

/-- **Every step keeps a row under each mark.** -/
theorem Rowed.touch (h : Touch op v v') (hv : v.Rowed) : v'.Rowed := by
  cases h with
  | untouched h =>
    refine hv.mono fun key hkey => ?_
    rw [h.chunks, ← h.evictable]
    exact ⟨hkey, id⟩
  | unindex owner address =>
    refine hv.dropped (fun key => ?_) (chunks_unindex owner address v)
    rw [unindex, evictable_unmark, (marks_dropRow owner address v).1]
  | writeBlob owner address sealed => exact hv
  | indexChunk owner address sealed =>
    refine hv.mono fun key hkey => ?_
    unfold indexChunk at hkey ⊢
    rw [evictable_unmark] at hkey
    rw [(unmark_same _ owner address).chunks]
    split_ifs at hkey with hsame
    · cases hkey
    · refine ⟨hkey, fun hrow => ?_⟩
      show ((v.chunks.insert (chunkKey owner address) _)[key]?).isSome
      rwa [Table.getElem?_insert_ne _ _ hsame]
  | mark owner chunks now =>
    exact markEvictable_keeps (fun owner now _ chunk hs => hs.markOne owner now chunk)
      (fun _ _ hs => hs) hv
      owner chunks now
  | prune owner needed now mark => exact hv.mono fun key hkey => ⟨(isSome_of_erase hkey).2, id⟩
  | evict owner needed now mark =>
    refine hv.dropped (fun key => ?_) (chunks_dropRow owner mark.2 v)
    show ((dropRow owner mark.2 v).evictable.erase (chunkKey owner mark.2))[key]? = _
    rw [Table.getElem?_erase', (marks_dropRow owner mark.2 v).1]
  | clearMark owner key => exact hv.mono fun key' hkey => ⟨(isSome_of_erase hkey).2, id⟩
  | clearOrder owner key => exact hv
  | clearQuota owner => exact hv

/-- No blob and no row has come. -/
structure NoneCame (v v' : Depot K) : Prop where
  blobs : ∀ key : UserId ×ₗ ChunkId, v.blobs[key]? = none → v'.blobs[key]? = none
  chunks : ∀ key : UserId ×ₗ ChunkId, v.chunks[key]? = none → v'.chunks[key]? = none

theorem NoneCame.of_same (h : SameBytes v v') : NoneCame v v' :=
  ⟨fun key hkey => by rw [h.blobs, hkey], fun key hkey => by rw [h.chunks, hkey]⟩

theorem NoneCame.trans {v'' : Depot K} (h : NoneCame v v') (h' : NoneCame v' v'') : NoneCame v v'' :=
  ⟨fun key hkey => h'.blobs key (h.blobs key hkey), fun key hkey => h'.chunks key (h.chunks key hkey)⟩

theorem NoneCame.dropRow (owner : UserId) (address : ChunkId) (v : Depot K) :
    NoneCame v (dropRow owner address v) := by
  refine ⟨fun key hkey => ?_, fun key hkey => ?_⟩
  · rw [(marks_dropRow owner address v).2.2.2, hkey]
  · rw [chunks_dropRow, Table.getElem?_erase', hkey, ite_self]

/-- Only storing a chunk brings one. -/
theorem NoneCame.touch (hput : ∀ owner address sealed, op ≠ .putChunk owner address sealed)
    (h : Touch op v v') : NoneCame v v' := by
  cases h with
  | untouched h => exact ⟨h.blobs, fun key hkey => by rw [h.chunks, hkey]⟩
  | unindex owner address =>
    exact (NoneCame.dropRow owner address v).trans (.of_same (unmark_same _ owner address))
  | writeBlob owner address sealed => exact absurd rfl (hput owner address sealed)
  | indexChunk owner address sealed => exact absurd rfl (hput owner address sealed)
  | mark owner chunks now => exact .of_same (markEvictable_same v owner chunks now)
  | prune owner needed now mark => exact .of_same (dropMark_same owner v mark)
  | evict owner needed now mark =>
      exact (NoneCame.dropRow owner mark.2 v).trans (.of_same (dropMark_same owner _ mark))
  | clearMark owner key => exact ⟨fun _ => id, fun _ => id⟩
  | clearOrder owner key => exact ⟨fun _ => id, fun _ => id⟩
  | clearQuota owner => exact ⟨fun _ => id, fun _ => id⟩

/-! ### Totals -/

theorem Totalled.congr (h : v.Totalled) (hchunks : v'.chunks = v.chunks)
    (htotal : v'.chunkBytes = v.chunkBytes)
    (howners : v'.ownerChunkBytes = v.ownerChunkBytes) : v'.Totalled :=
  ⟨by rw [htotal, hchunks, h.total], fun owner => by rw [howners, hchunks, h.owners]⟩

theorem Totalled.same (h : v.Totalled) (hs : SameBytes v v') :
    v'.Totalled := h.congr hs.chunks hs.total hs.owners

theorem Totalled.dropRow (h : v.Totalled) (owner : UserId) (address : ChunkId) :
    (dropRow owner address v).Totalled := by
  have htotal := total_erase_chunk v.chunks (chunkKey owner address)
  have howners := sizesOf_erase v.chunks owner address
  unfold Depot.dropRow
  dsimp only
  cases hrow : v.chunks[chunkKey owner address]? with
  | none =>
    have herased : v.chunks.erase (chunkKey owner address) = v.chunks := Table.erase_eq_self hrow
    dsimp only
    rw [herased]
    exact h
  | some old =>
    rw [hrow] at htotal howners
    refine h.recounted (by rw [hrow]; rfl) v.blobs htotal fun o => ?_
    rw [ite_self, Nat.add_zero]
    exact howners o

theorem Totalled.touch (h : Touch op v v') (hv : v.Totalled) : v'.Totalled := by
  cases h with
  | untouched h => exact hv.congr h.chunks h.total h.owners
  | unindex owner address => exact (hv.dropRow owner address).same (unmark_same _ owner address)
  | writeBlob owner address sealed => exact hv.congr rfl rfl rfl
  | indexChunk owner address sealed =>
    exact (hv.recounted rfl v.blobs (total_insert_chunk _ _ _) (sizesOf_insert _ _ _ _)).same
      (unmark_same _ owner address)
  | mark owner chunks now => exact hv.same (markEvictable_same v owner chunks now)
  | prune owner needed now mark => exact hv.same (dropMark_same owner v mark)
  | evict owner needed now mark => exact (hv.dropRow owner mark.2).same (dropMark_same owner _ mark)
  | clearMark owner key => exact hv.congr rfl rfl rfl
  | clearOrder owner key => exact hv.congr rfl rfl rfl
  | clearQuota owner => exact hv.congr rfl rfl rfl

/-! ### Evicting -/

/-- What is known of some marks of an owner: each is the mark of its chunk, unless that has none. -/
def Current (owner : UserId) (marks : List (ℕ × ChunkId)) (v : Depot K) : Prop :=
  ∀ mark ∈ marks, ∀ at', v.evictable[chunkKey owner mark.2]? = some at' → at' = mark.1

theorem mem_marksOf {mark : ℕ × ChunkId} :
    mark ∈ v.marksOf owner ↔ (v.evictionOrder[orderKey owner mark.1 mark.2]?).isSome := by
  unfold marksOf
  constructor
  · intro h
    obtain ⟨r, hr, hmark⟩ := List.mem_filterMap.mp h
    split_ifs at hmark with howner
    cases hmark
    have hkey : orderKey owner (ofLex (ofLex r.1).2).1 (ofLex (ofLex r.1).2).2 = r.1 := by
      rw [← howner]
      rfl
    rw [hkey, Table.mem_toList.mp hr]
    rfl
  · intro h
    obtain ⟨u, hu⟩ := Option.isSome_iff_exists.mp h
    exact List.mem_filterMap.mpr
      ⟨(orderKey owner mark.1 mark.2, u), Table.mem_toList.mpr hu, if_pos rfl⟩

variable {marks : List (ℕ × ChunkId)}

theorem Paired.current (h : v.Paired)
    (hmarks : ∀ mark ∈ marks, mark ∈ v.marksOf owner) : Current owner marks v := by
  intro mark hmark at' hat
  have hown := (h owner mark.1 mark.2).mpr (mem_marksOf.mp (hmarks mark hmark))
  rw [hown] at hat
  cases hat
  rfl

theorem Current.dropMark (h : Current owner marks v)
    (mark : ℕ × ChunkId) : Current owner marks (dropMark owner v mark) := by
  intro mark' hmark' at' hat
  have hold : (v.evictable.erase (chunkKey owner mark.2))[chunkKey owner mark'.2]? = some at' := hat
  rw [Table.getElem?_erase'] at hold
  split_ifs at hold
  exact h mark' hmark' at' hold

theorem Current.congr (h : Current owner marks v)
    (hmarks : v'.evictable = v.evictable) : Current owner marks v' := by
  unfold Current
  rw [hmarks]
  exact h

/-- Dropping marks one by one, whatever else is done that leaves the marks alone. -/
theorem Paired.dropMarks {f : Depot K → ℕ × ChunkId → Depot K}
    (hf : ∀ v mark, (f v mark).evictable = v.evictable ∧ (f v mark).evictionOrder = v.evictionOrder) :
    ∀ (dropped : List (ℕ × ChunkId)), (∀ mark ∈ dropped, mark ∈ marks) → ∀ {v : Depot K}, v.Paired →
      Current owner marks v →
      (dropped.foldl (fun v mark => Depot.dropMark owner (f v mark) mark) v).Paired ∧
        Current owner marks (dropped.foldl (fun v mark => Depot.dropMark owner (f v mark) mark) v)
  | [], _, _, h, hcurrent => ⟨h, hcurrent⟩
  | mark :: rest, hsub, v, h, hcurrent => by
    have hpaired : (f v mark).Paired := h.congr (hf v mark).1 (hf v mark).2
    have hknown : Current owner marks (f v mark) := hcurrent.congr (hf v mark).1
    exact Paired.dropMarks hf rest (fun mark' h' => hsub mark' (List.mem_cons_of_mem _ h'))
      (hpaired.dropMark (hknown mark (hsub mark List.mem_cons_self))) (hknown.dropMark mark)

/-- The marks chosen and those met on the way are marks of the owner. -/
theorem chooseEvictions_mem (owner : UserId) (needed now : ℕ) :
    ∀ (marks chosen expired : List (ℕ × ChunkId)) (room : ℕ) {mark : ℕ × ChunkId},
      mark ∈ (v.chooseEvictions owner needed now chosen expired room marks).1 ∨
        mark ∈ (v.chooseEvictions owner needed now chosen expired room marks).2.1 →
      mark ∈ chosen ∨ mark ∈ expired ∨ mark ∈ marks
  | [], _, _, _, _, h => h.imp_right .inl
  | next :: rest, chosen, expired, room, mark, h => by
    unfold chooseEvictions at h
    split_ifs at h
    · exact h.imp_right .inl
    · rcases chooseEvictions_mem owner needed now rest _ _ _ h with h | h | h
      · rcases List.mem_append.mp h with h | h
        · exact .inl h
        · exact .inr (.inr (List.mem_singleton.mp h ▸ List.mem_cons_self))
      · exact .inr (.inl h)
      · exact .inr (.inr (List.mem_cons_of_mem _ h))
    · rcases chooseEvictions_mem owner needed now rest _ _ _ h with h | h | h
      · exact .inl h
      · rcases List.mem_append.mp h with h | h
        · exact .inr (.inl h)
        · exact .inr (.inr (List.mem_singleton.mp h ▸ List.mem_cons_self))
      · exact .inr (.inr (List.mem_cons_of_mem _ h))

/-- Evicting, wherever it stops. -/
theorem Paired.evictStages (h : v.Paired) (owner : UserId) (needed now k : ℕ) :
    (after v ((v.evictStages owner needed now).take k)).Paired := by
  unfold Depot.evictStages
  split_ifs
  · rw [List.take_nil]
    exact h
  have hmem : ∀ {mark : ℕ × ChunkId}, _ :=
    @chooseEvictions_mem K v owner needed now (v.marksOf owner) [] [] 0
  generalize v.chooseEvictions owner needed now [] [] 0 (v.marksOf owner) = choice at hmem
  obtain ⟨chosen, expired, room⟩ := choice
  dsimp only at hmem ⊢
  have hcurrent : Current owner (chosen ++ expired) v := h.current fun mark hmark =>
    (hmem (List.mem_append.mp hmark)).elim (by simp) fun hor => hor.elim (by simp) id
  -- the steps keep both, one after another
  have hsteps : ∀ (stages : List (VaultStage K)), (∀ stage ∈ stages, ∀ w : Depot K,
      w.Paired ∧ Current owner (chosen ++ expired) w →
        (stage.effect w).Paired ∧ Current owner (chosen ++ expired) (stage.effect w)) →
      (after v stages).Paired ∧
          Current owner (chosen ++ expired) (after v stages) := fun stages hkeep =>
    List.foldlRecOn (motive := fun w : Depot K => w.Paired ∧ Current owner (chosen ++ expired) w)
      stages _
      ⟨h, hcurrent⟩ fun w hw stage hstage => hkeep stage hstage w hw
  refine (hsteps _ fun stage hstage w hw => ?_).1
  obtain hstage | hstage := List.mem_append.mp (List.mem_of_mem_take hstage)
  · split_ifs at hstage
    · cases hstage
    · obtain rfl := List.mem_singleton.mp hstage
      exact Paired.dropMarks (f := fun v _ => v) (fun _ _ => ⟨rfl, rfl⟩) expired
        (fun mark hmark => List.mem_append_right _ hmark) hw.1 hw.2
  · split_ifs at hstage
    · cases hstage
    · simp only [List.mem_append, List.mem_map, List.mem_singleton] at hstage
      obtain ⟨mark, _, rfl⟩ | rfl := hstage
      · exact ⟨hw.1.congr rfl rfl, hw.2.congr rfl⟩
      · exact Paired.dropMarks (f := fun v mark => dropRow owner mark.2 v)
          (fun v mark => ⟨(marks_dropRow owner mark.2 v).1, (marks_dropRow owner mark.2 v).2.1⟩) chosen
          (fun mark hmark => List.mem_append_left _ hmark) hw.1 hw.2

/-! ### Forgetting an owner -/

/-- The steps of `forget_owner` before it takes out the marks that are left. -/
def beforeMarks (v : Depot K) (owner : UserId) : List (VaultStage K) :=
  ⟨.plain, id⟩ :: ((v.chunksFor owner).flatMap (removeStages owner) ++
    midChains ((v.emptied owner).chainErasers owner))

/-- How many marks of the owner it then finds left, in each of the two tables. -/
def leftOver (v : Depot K) (owner : UserId) : ℕ × ℕ :=
  ((keysOf owner (v.emptied owner).evictable).length,
    (keysOf owner (v.emptied owner).evictionOrder).length)

/-- Whether `k` steps end between the first removal of a mark left over and the last. -/
def MidMarks (v : Depot K) (owner : UserId) (k : ℕ) : Prop :=
  (v.beforeMarks owner).length < k ∧
    k < (v.beforeMarks owner).length + ((v.leftOver owner).1 + (v.leftOver owner).2)

theorem stages_forgetOwner [SealedLength K] (v : Depot K) (owner : UserId) :
    v.stages (.forgetOwner owner) =
      v.beforeMarks owner ++ ((v.emptied owner).lastErasers owner).map fun effect =>
        ⟨.plain, effect⟩ := by
  unfold beforeMarks
  rw [List.cons_append, List.append_assoc]
  rfl

theorem Paired.beforeMarks (hstage : stage ∈ v.beforeMarks owner)
    {w : Depot K} (h : w.Paired) : (stage.effect w).Paired := by
  obtain rfl | hstage := List.mem_cons.mp hstage
  · exact h
  obtain hstage | hstage := List.mem_append.mp hstage
  · obtain ⟨address, _, hstage⟩ := List.mem_flatMap.mp hstage
    have htouch : Touch (.removeChunk owner address) w (stage.effect w) := touch_removeStages hstage w
    exact Paired.touch rfl htouch h
  · have hsame := untouched_chainErasers (mem_midChains hstage) w
    exact h.congr hsame.evictable hsame.evictionOrder

theorem after_beforeMarks (v : Depot K) (owner : UserId) :
    after v (v.beforeMarks owner) =
      { v.emptied owner with
        toVault := (v.emptied owner).toVault.forgotten owner
        chainBytes := (v.emptied owner).chainBytes.filter fun key _ => (ofLex key).1 ≠ owner } := by
  have hchunks : after v ((v.chunksFor owner).flatMap (removeStages owner)) = v.emptied owner :=
    after_removeStages owner _ v
  have hchains := (after_midChains ((v.emptied owner).chainErasers owner) (v.emptied owner)).trans
    (foldl_chainErasers (v.emptied owner) owner)
  have hfirst : after v (v.beforeMarks owner) =
    after v ((v.chunksFor owner).flatMap (removeStages owner) ++
    midChains ((v.emptied owner).chainErasers owner)) := rfl
  rw [hfirst, after_append, hchunks, hchains]

/-- Without the marks of one owner, in both tables. -/
theorem Paired.forgotten (h : v.Paired)
    (hmarks : v'.evictable = v.evictable.filter fun key _ => (ofLex key).1 ≠ owner)
    (horder : v'.evictionOrder = v.evictionOrder.filter fun key _ => (ofLex key).1 ≠ owner) :
      v'.Paired := by
  intro owner' at' chunk
  rw [hmarks, horder, Table.getElem?_filter_keys v.evictable fun key => (ofLex key).1 ≠ owner,
    Table.getElem?_filter_keys v.evictionOrder fun key => (ofLex key).1 ≠ owner]
  by_cases howner : owner' = owner
  · have hone : decide ((ofLex (chunkKey owner' chunk)).1 ≠ owner) = false :=
      decide_eq_false (not_not.mpr howner)
    have htwo : decide ((ofLex (orderKey owner' at' chunk)).1 ≠ owner) = false :=
      decide_eq_false (not_not.mpr howner)
    rw [hone, htwo]
    exact ⟨(by simp), (by simp)⟩
  · have hone : decide ((ofLex (chunkKey owner' chunk)).1 ≠ owner) = true := decide_eq_true howner
    have htwo : decide ((ofLex (orderKey owner' at' chunk)).1 ≠ owner) = true := decide_eq_true howner
    rw [hone, htwo]
    exact h owner' at' chunk

/-- The marks left over are taken out of both tables, or of none. -/
theorem Paired.lastErasers (h : v.Paired) {j : ℕ}
    (hj : j = 0 ∨ (keysOf owner v.evictable).length + (keysOf owner v.evictionOrder).length ≤ j) :
    (((v.lastErasers owner).take j).foldl (fun v effect => effect v) v).Paired := by
  obtain rfl | hj := hj
  · exact h
  have hmarks :=
    foldl_eraseKeys (fun v : Depot K => v.evictable) (fun t v => { v with evictable := t })
    (fun _ _ => rfl) (fun _ _ _ => rfl) (fun _ => rfl) owner
  have horder :=
    foldl_eraseKeys (fun v : Depot K => v.evictionOrder) (fun t v => { v with evictionOrder := t })
    (fun _ _ => rfl) (fun _ _ _ => rfl) (fun _ => rfl) owner
  rw [Depot.lastErasers, List.take_append, List.take_of_length_le (by simpa using hj),
    List.foldl_append, List.foldl_append, hmarks, horder]
  refine List.foldlRecOn (motive := Paired) _ _ (h.forgotten rfl rfl) fun w hw effect heffect => ?_
  have heffect := List.mem_of_mem_take heffect
  simp only [List.mem_cons, List.mem_map] at heffect
  obtain rfl | ⟨key, _, rfl⟩ := heffect
  · exact hw.congr rfl rfl
  · exact hw.congr rfl rfl

/-- Forgetting an owner, wherever it stops but there. -/
theorem Paired.forgetStages [SealedLength K] (h : v.Paired) (hk : ¬ v.MidMarks owner k) :
    (after v ((v.stages (.forgetOwner owner)).take k)).Paired := by
  have hbefore : ∀ n, (after v ((v.beforeMarks owner).take n)).Paired := fun n =>
    List.foldlRecOn (motive := Paired) _ _ h fun w hw stage hstage =>
      hw.beforeMarks (List.mem_of_mem_take hstage)
  rw [stages_forgetOwner, List.take_append, after_append]
  rcases Nat.le_total k (v.beforeMarks owner).length with hearly | hlate
  · rw [Nat.sub_eq_zero_of_le hearly, List.take_zero]
    exact hbefore k
  · have hall := hbefore (v.beforeMarks owner).length
    rw [List.take_length] at hall
    rw [List.take_of_length_le hlate, after_beforeMarks, ← List.map_take, after, List.foldl_map]
    rw [after_beforeMarks] at hall
    have hkeys : k - (v.beforeMarks owner).length = 0 ∨
        (v.leftOver owner).1 + (v.leftOver owner).2 ≤ k - (v.beforeMarks owner).length := by
      unfold MidMarks at hk
      omega
    exact hall.lastErasers hkeys

end Marks

theorem Paired.call_together (h : v.Paired) (hop : op.together = true) (k : ℕ) :
    (after v ((v.stages op).take k)).Paired :=
  (touch_after v op k).keeps (fun htouch => Paired.touch hop htouch) h

/-- **The two tables of marks stay one relation**, wherever a call stops, unless it is forgetting an
owner that has marks left over. -/
theorem Paired.call (h : v.Paired)
    (hforget : ∀ owner, op = .forgetOwner owner → ¬ v.MidMarks owner k) :
    (after v ((v.stages op).take k)).Paired := by
  cases op with
  | evictMarked owner needed now =>
    cases k with
    | zero => exact h
    | succ k => exact h.evictStages owner needed now k
  | forgetOwner owner => exact h.forgetStages (hforget owner rfl)
  | putChunk owner address sealed => exact h.call_together rfl k
  | removeChunk owner address => exact h.call_together rfl k
  | markEvictable owner chunks now => exact h.call_together rfl k
  | putSegment envelope => exact h.call_together rfl k
  | checkDisk cursor limit => exact h.call_together rfl k

/-! ### The day's count -/

/-- How many marks an owner has. -/
def marksHeld (v : Depot K) (owner : UserId) : ℕ := v.evictable.tally fun key => (ofLex key).1 = owner

/-- The day a marking call counts on, and how many marks were made that day. -/
def quotaAt (v : Depot K) (owner : UserId) (now : ℕ) : ℕ × ℕ :=
  match v.evictQuota[owner]? with
  | some (counted, made) => if now / day ≤ counted then (counted, made) else (now / day, 0)
  | none => (now / day, 0)

/-- The calls that write an owner's count. -/
def VaultOp.counts (owner : UserId) : VaultOp K → Bool
  | .markEvictable o _ _ | .forgetOwner o => o = owner
  | _ => false

section Quota

omit [SealedLength K]

variable {v v' : Depot K}

theorem markOne_count (owner : UserId) (now : ℕ) (s : Depot K × ℕ × ℕ) (chunk : ChunkId) :
    let s' := markOne owner now s chunk
    s'.1.evictQuota = s.1.evictQuota ∧ s.2.1 ≤ s'.2.1 ∧
      (s.2.1 ≤ maxEvictablePerDay → s'.2.1 ≤ maxEvictablePerDay) ∧
      s'.1.marksHeld owner = s.1.marksHeld owner + (s'.2.1 - s.2.1) := by
  unfold markOne
  dsimp only
  split_ifs with hmarked hrow
  · exact ⟨rfl, Nat.le_refl _, id, by rw [Nat.sub_self]; rfl⟩
  · exact ⟨rfl, Nat.le_refl _, id, by rw [Nat.sub_self]; rfl⟩
  · have hroom : s.2.1 < maxEvictablePerDay := Nat.not_le.mp fun hfull => hrow (.inr hfull)
    refine ⟨rfl, Nat.le_succ _, fun _ => hroom, ?_⟩
    have hnew : s.1.evictable[chunkKey owner chunk]? = none := Option.not_isSome_iff_eq_none.mp hmarked
    have htally :=
      Table.tally_insert (fun key : UserId ×ₗ ChunkId => (ofLex key).1 = owner) s.1.evictable
      (chunkKey owner chunk) now
    rw [hnew] at htally
    rw [Nat.add_sub_cancel_left]
    simpa [marksHeld, chunkKey] using htally

theorem markFold_count (owner : UserId) (now : ℕ) : ∀ (chunks : List ChunkId) (s : Depot K × ℕ × ℕ),
    let s' := chunks.foldl (markOne owner now) s
    s'.1.evictQuota = s.1.evictQuota ∧ s.2.1 ≤ s'.2.1 ∧
      (s.2.1 ≤ maxEvictablePerDay → s'.2.1 ≤ maxEvictablePerDay) ∧
      s'.1.marksHeld owner = s.1.marksHeld owner + (s'.2.1 - s.2.1)
  | [], s => ⟨rfl, Nat.le_refl _, id, by rw [List.foldl_nil, Nat.sub_self, Nat.add_zero]⟩
  | chunk :: rest, s => by
    obtain ⟨hquota, hmore, hbound, hheld⟩ := markOne_count owner now s chunk
    obtain ⟨hquota', hmore', hbound', hheld'⟩ :=
      markFold_count owner now rest (markOne owner now s chunk)
    refine ⟨hquota'.trans hquota, hmore.trans hmore', fun h => hbound' (hbound h), ?_⟩
    rw [List.foldl_cons, hheld', hheld]
    omega

/-- **What a marking call counts** is what it marks, and not more than a day's marks. -/
theorem markEvictable_count (v : Depot K) (owner : UserId) (chunks : List ChunkId) (now : ℕ) :
    ∃ made, (v.markEvictable owner chunks now).1.evictQuota =
        v.evictQuota.insert owner ((v.quotaAt owner now).1, made) ∧ (v.quotaAt owner now).2 ≤ made ∧
      ((v.quotaAt owner now).2 ≤ maxEvictablePerDay → made ≤ maxEvictablePerDay) ∧
      (v.markEvictable owner chunks now).1.marksHeld owner =
        v.marksHeld owner + (made - (v.quotaAt owner now).2) := by
  obtain ⟨hquota, hmore, hbound, hheld⟩ :=
    markFold_count owner now (chunks.dedup.insertionSort (· ≤ ·))
    (v, (v.quotaAt owner now).2, 0)
  refine ⟨((chunks.dedup.insertionSort (· ≤ ·)).foldl (markOne owner now)
    (v, (v.quotaAt owner now).2, 0)).2.1,
    ?_, hmore, hbound, hheld⟩
  rw [← hquota]
  rfl

/-- Chunks that are held and not marked are all marked, while the day has marks left. -/
theorem markFold_all (owner : UserId) (now : ℕ) :
    ∀ {chunks : List ChunkId} {s : Depot K × ℕ × ℕ}, chunks.Nodup →
    (∀ chunk ∈ chunks, (s.1.chunks[chunkKey owner chunk]?).isSome ∧
      s.1.evictable[chunkKey owner chunk]? = none) →
    s.2.1 + chunks.length ≤ maxEvictablePerDay → (chunks.foldl (markOne owner now) s).2.1 =
      s.2.1 + chunks.length
  | [], _, _, _, _ => rfl
  | chunk :: rest, s, hnodup, hheld, hroom => by
    obtain ⟨hrow, hnone⟩ := hheld chunk List.mem_cons_self
    rw [List.length_cons] at hroom
    have hless : s.2.1 < maxEvictablePerDay := by omega
    have hone : markOne owner now s chunk =
        ({ s.1 with
            evictable := s.1.evictable.insert (chunkKey owner chunk) now
            evictionOrder := s.1.evictionOrder.insert (orderKey owner now chunk) () }, s.2.1 + 1,
                s.2.2 + 1) := by
      unfold markOne
      dsimp only
      rw [hnone, Option.isSome_none, if_neg Bool.false_ne_true, if_neg]
      rintro (hgone | hfull)
      · rw [Option.isNone_iff_eq_none.mp hgone] at hrow
        cases hrow
      · exact absurd hfull (Nat.not_le.mpr hless)
    obtain ⟨hout, hnodup⟩ := List.nodup_cons.mp hnodup
    rw [List.foldl_cons, hone,
      markFold_all owner now hnodup (fun other hother => ?_) (by dsimp only; omega),
      List.length_cons]
    · dsimp only
      omega
    · obtain ⟨hrow', hnone'⟩ := hheld other (List.mem_cons_of_mem _ hother)
      refine ⟨hrow', ?_⟩
      show (s.1.evictable.insert (chunkKey owner chunk) now)[chunkKey owner other]? = none
      rw [Table.getElem?_insert_ne, hnone']
      intro hkey
      exact hout ((chunkKey_inj hkey).2 ▸ hother)

theorem marksHeld_markEvictable (now : ℕ) (hnodup : chunks.Nodup)
    (hheld : ∀ chunk ∈ chunks, (v.chunks[chunkKey owner chunk]?).isSome ∧
      v.evictable[chunkKey owner chunk]? = none)
    (hroom : (v.quotaAt owner now).2 + chunks.length ≤ maxEvictablePerDay) :
    (v.markEvictable owner chunks now).1.marksHeld owner = v.marksHeld owner + chunks.length := by
  have hperm := chunks.perm_insertionSort (· ≤ ·)
  obtain ⟨-, -, -, hcount⟩ :=
    markFold_count owner now (chunks.insertionSort (· ≤ ·)) (v, (v.quotaAt owner now).2, 0)
  have hall :=
    markFold_all owner now (s := (v, (v.quotaAt owner now).2, 0)) (hperm.nodup_iff.mpr hnodup)
    (fun chunk hchunk => hheld chunk (hperm.mem_iff.mp hchunk)) (by rw [hperm.length_eq]; exact hroom)
  rw [hall, Nat.add_sub_cancel_left, hperm.length_eq] at hcount
  rw [← hcount]
  unfold markEvictable
  rw [hnodup.dedup]
  rfl

theorem quota_touch (hop : op.counts owner = false) (h : Touch op v v') :
    v'.evictQuota[owner]? = v.evictQuota[owner]? := by
  cases h with
  | untouched h => rw [h.evictQuota]
  | unindex owner' address =>
    have hquota : (unindex owner' address v).evictQuota = v.evictQuota := by
      refine Eq.trans ?_ (marks_dropRow owner' address v).2.2.1
      unfold unindex unmark
      split <;> rfl
    rw [hquota]
  | writeBlob owner' address sealed => rfl
  | indexChunk owner' address sealed =>
    have hquota : (indexChunk owner' address v).evictQuota = v.evictQuota := by
      unfold indexChunk unmark
      dsimp only
      split <;> rfl
    rw [hquota]
  | mark owner' chunks now =>
    obtain ⟨made, hquota, -⟩ := markEvictable_count v owner' chunks now
    rw [hquota, Table.getElem?_insert_ne _ _ (of_decide_eq_false hop)]
  | prune owner' needed now mark => rfl
  | evict owner' needed now mark =>
    show (dropRow owner' mark.2 v).evictQuota[owner]? = _
    rw [(marks_dropRow owner' mark.2 v).2.2.1]
  | clearMark owner' key => rfl
  | clearOrder owner' key => rfl
  | clearQuota owner' => exact Table.getElem?_erase_ne _ (of_decide_eq_false hop)

/-- Forgetting an owner leaves its count, or takes it out. -/
theorem quota_forget (h : Touch (.forgetOwner owner) v v') :
    v'.evictQuota[owner]? = v.evictQuota[owner]? ∨ v'.evictQuota[owner]? = none := by
  cases h with
  | untouched h =>
    rw [h.evictQuota]
    exact .inl rfl
  | unindex owner' address =>
    have hquota : (unindex owner' address v).evictQuota = v.evictQuota := by
      refine Eq.trans ?_ (marks_dropRow owner' address v).2.2.1
      unfold unindex unmark
      split <;> rfl
    rw [hquota]
    exact .inl rfl
  | clearMark owner key => exact .inl rfl
  | clearOrder owner key => exact .inl rfl
  | clearQuota owner => exact .inr (Table.getElem?_erase_self' ..)

end Quota

/-! ### A rebuild -/

theorem backfill_eq (v : Depot K) :
    ∃ bytes, v.backfillSegmentBytes = { v with chainBytes := bytes } := by
  unfold backfillSegmentBytes
  split_ifs
  · exact ⟨_, rfl⟩
  · exact ⟨v.chainBytes, rfl⟩

/-- Counting again leaves blobs and marks alone. -/
theorem after_open (w : VaultWorld K) (k : ℕ) :
    let v := after w.vault (w.openStages.take k)
    v.blobs = w.vault.blobs ∧ v.evictable = w.vault.evictable ∧
      v.evictionOrder = w.vault.evictionOrder ∧
      v.evictQuota = w.vault.evictQuota := by
  refine List.foldlRecOn (motive := fun v : Depot K => v.blobs = w.vault.blobs ∧
    v.evictable = w.vault.evictable ∧
    v.evictionOrder = w.vault.evictionOrder ∧
      v.evictQuota = w.vault.evictQuota) _ _ ⟨rfl, rfl, rfl, rfl⟩
    fun v hv stage hstage => ?_
  have hstage := List.mem_of_mem_take hstage
  obtain hstage | hstage := List.mem_append.mp hstage
  · split_ifs at hstage
    · simp only [reconcileStages, reindexStages, List.mem_append, List.mem_map,
        List.mem_singleton] at hstage
      obtain (⟨r, _, rfl⟩ | ⟨key, _, rfl⟩) | rfl := hstage
      all_goals exact hv
    · cases hstage
  · obtain rfl := List.mem_singleton.mp hstage
    obtain ⟨bytes, hbytes⟩ := v.backfill_eq
    dsimp only
    rw [hbytes]
    exact hv

end Depot

namespace VaultWorld

open Depot

variable [SealedLength K]

/-! ### Along a run -/

/-- A move makes so many steps of a call. -/
inductive Calls (w : VaultWorld K) : Move K → VaultOp K → ℕ → Prop
  | runs (op : VaultOp K) : Calls w (.runs op) op (w.vault.stages op).length
  | fails (op : VaultOp K) (k : ℕ) : Calls w (.fails op k) op k
  | crashes (op : VaultOp K) (k : ℕ) : Calls w (.crashes op k) op k

/-- A move makes so many steps of an open. -/
inductive Opens (w : VaultWorld K) : Move K → ℕ → Prop
  | opens : Opens w .opens w.openStages.length
  | openFails (k : ℕ) : Opens w (.openFails k) k

/-- What becomes of the vault in one move. -/
theorem vault_step (w : VaultWorld K) (move : Move K) :
    (w.step move).vault = w.vault ∨
      (w.running = true ∧ ∃ op k, w.Calls move op k ∧
        (w.step move).vault = after w.vault ((w.vault.stages op).take k)) ∨
      w.running = false ∧ ∃ k, w.Opens move k ∧ (w.step move).vault =
        after w.vault (w.openStages.take k) := by
  cases move with
  | runs op =>
    rw [step]
    split_ifs with hrunning
    · refine .inr (.inl ⟨hrunning, op, _, .runs op, ?_⟩)
      rw [List.take_length]
    · exact .inl rfl
  | fails op k =>
    rw [step]
    split_ifs with hrunning
    · exact .inr (.inl ⟨hrunning, op, k, .fails op k, rfl⟩)
    · exact .inl rfl
  | crashes op k =>
    rw [step]
    split_ifs with hrunning
    · exact .inr (.inl ⟨hrunning, op, k, .crashes op k, rfl⟩)
    · exact .inl rfl
  | closes =>
    rw [step]
    split_ifs <;> exact .inl rfl
  | opens =>
    rw [step]
    split_ifs with hrunning
    · exact .inl rfl
    · refine .inr (.inr ⟨Bool.eq_false_iff.mpr hrunning, _, .opens, ?_⟩)
      rw [List.take_length]
  | openFails k =>
    rw [step]
    split_ifs with hrunning
    · exact .inl rfl
    · exact .inr (.inr ⟨Bool.eq_false_iff.mpr hrunning, k, .openFails k, rfl⟩)

/-- Every move of a run is one that is allowed where it is made. -/
def Always (allowed : VaultWorld K → Move K → Prop) (w : VaultWorld K) : List (Move K) → Prop
  | [] => True
  | move :: rest => allowed w move ∧ Always allowed (w.step move) rest

variable {w : VaultWorld K}

theorem Always.run {allowed : VaultWorld K → Move K → Prop} {P : VaultWorld K → Prop}
    (hstep : ∀ w move, allowed w move → P w → P (w.step move)) {moves : List (Move K)}
    (hall : w.Always allowed moves) (h : P w) : P (w.run moves) := by
  induction moves generalizing w with
  | nil => exact h
  | cons move rest ih => exact ih hall.2 (hstep w move hall.1 h)

/-- No `forget_owner` stops between its first and its last removal of marks that are left over. -/
def MarksWhole (w : VaultWorld K) (move : Move K) : Prop :=
  ∀ owner k, w.Calls move (.forgetOwner owner) k → ¬ w.vault.MidMarks owner k

/-- No rebuild finds a marked chunk without its blob. -/
def MarksOnDisk (w : VaultWorld K) (move : Move K) : Prop :=
  ∀ k, w.Opens move k → w.running = false → w.reconciles = true →
    ∀ key : UserId ×ₗ ChunkId, (w.vault.evictable[key]?).isSome → (w.vault.blobs[key]?).isSome

/-- No `put_chunk` stops after writing the blob of a chunk that is marked and had none. -/
def PutsWhole (w : VaultWorld K) (move : Move K) : Prop :=
  ∀ owner address sealed, w.Calls move (.putChunk owner address sealed) 2 →
    w.vault.blobs[chunkKey owner address]? = none → w.vault.evictable[chunkKey owner address]? = none

variable {move : Move K}

theorem paired_step (hwhole : w.MarksWhole move) (h : w.vault.Paired) :
    (w.step move).vault.Paired := by
  rcases w.vault_step move with hstill | ⟨-, op, k, hcalls, hvault⟩ | ⟨-, k, -, hvault⟩
  · rwa [hstill]
  · rw [hvault]
    refine h.call fun owner hop => ?_
    subst hop
    exact hwhole owner k hcalls
  · rw [hvault]
    obtain ⟨-, hmarks, horder, -⟩ := after_open w k
    exact h.congr hmarks horder

/-- A rebuild drops rows of blobs that are gone, and no other. -/
theorem rows_open (w : VaultWorld K) (k : ℕ) (hrow : (w.vault.chunks[key]?).isSome)
    (hblob : w.reconciles = true → (w.vault.blobs[key]?).isSome) :
    ((after w.vault (w.openStages.take k)).chunks[key]?).isSome := by
  refine List.foldlRecOn (motive := fun v : Depot K => (v.chunks[key]?).isSome) _ _ hrow fun v hv
    stage hstage => ?_
  have hstage := List.mem_of_mem_take hstage
  obtain hstage | hstage := List.mem_append.mp hstage
  · split_ifs at hstage with hreconciles
    · simp only [reconcileStages, reindexStages, List.mem_append, List.mem_map,
        List.mem_singleton] at hstage
      obtain (⟨r, _, rfl⟩ | ⟨gone, hgone, rfl⟩) | rfl := hstage
      · show ((v.chunks.insert r.1 r.2.length)[key]?).isSome
        rw [Table.getElem?_insert']
        split_ifs
        · rfl
        · exact hv
      · have hne : gone ≠ key := by
          rintro rfl
          have hnone := (List.mem_filter.mp hgone).2
          rw [Option.isNone_iff_eq_none.mp hnone] at hblob
          cases hblob hreconciles
        show ((v.chunks.erase gone)[key]?).isSome
        rwa [Table.getElem?_erase_ne _ hne]
      · exact hv
    · cases hstage
  · obtain rfl := List.mem_singleton.mp hstage
    obtain ⟨bytes, hbytes⟩ := v.backfill_eq
    dsimp only
    rw [hbytes]
    exact hv

theorem rowed_step (hdisk : w.MarksOnDisk move) (h : w.vault.Rowed) :
    (w.step move).vault.Rowed := by
  rcases w.vault_step move with hstill | ⟨-, op, k, -, hvault⟩ | ⟨hrunning, k, hopens, hvault⟩
  · rwa [hstill]
  · rw [hvault]
    exact (touch_after w.vault op k).keeps Rowed.touch h
  · rw [hvault]
    intro key hkey
    obtain ⟨-, hmarks, -⟩ := after_open w k
    rw [hmarks] at hkey
    exact rows_open w k (h key hkey) fun hreconciles => hdisk k hopens hrunning hreconciles key hkey

/-- A blob or a row of a chunk has come. -/
def Arrives (v v' : Depot K) (key : UserId ×ₗ ChunkId) : Prop :=
  v.blobs[key]? = none ∧ (v'.blobs[key]?).isSome ∨ v.chunks[key]? = none ∧ (v'.chunks[key]?).isSome

omit [SealedLength K] in
theorem not_arrives {v v' : Depot K} (h : NoneCame v v')
    (key : UserId ×ₗ ChunkId) : ¬ Arrives v v' key := by
  rintro (⟨hnone, hcame⟩ | ⟨hnone, hcame⟩)
  · rw [h.blobs key hnone] at hcame
    cases hcame
  · rw [h.chunks key hnone] at hcame
    cases hcame

/-- What storing a chunk brings is that chunk. -/
theorem arrives_put {sealed : Bytes}
    (h : Arrives v (after v ((v.stages (.putChunk owner address sealed)).take k)) key) :
    (after v ((v.stages (.putChunk owner address sealed)).take k)).evictable[key]? = none ∨
      k = 2 ∧ chunkKey owner address = key ∧ v.blobs[key]? = none ∧
        (after v ((v.stages (.putChunk owner address sealed)).take k)).evictable[key]? =
          v.evictable[key]? := by
  match k, h with
  | 0, h => exact absurd h (not_arrives ⟨fun _ => id, fun _ => id⟩ key)
  | 1, h => exact absurd h (not_arrives ⟨fun _ => id, fun _ => id⟩ key)
  | 2, h =>
    have hkey : chunkKey owner address = key ∧ v.blobs[key]? = none := by
      rcases h with ⟨hnone, hcame⟩ | ⟨hnone, hcame⟩
      · refine ⟨?_, hnone⟩
        have hblob : ((v.blobs.insert (chunkKey owner address) _)[key]?).isSome := hcame
        rw [Table.getElem?_insert'] at hblob
        split_ifs at hblob with hsame
        · exact hsame
        · rw [hnone] at hblob
          cases hblob
      · have hrow : (v.chunks[key]?).isSome := hcame
        rw [hnone] at hrow
        cases hrow
    exact .inr ⟨rfl, hkey.1, hkey.2, rfl⟩
  | k + 3, h =>
    refine .inl ?_
    have hdone : (v.stages (.putChunk owner address sealed)).take (k + 3) =
        v.stages (.putChunk owner address sealed) :=
      List.take_of_length_le (by simp [stages, steps])
    rw [hdone] at h ⊢
    have hafter : after v (v.stages (.putChunk owner address sealed)) =
        indexChunk owner address (writeBlob owner address sealed v) := rfl
    rw [hafter] at h ⊢
    have hkey : chunkKey owner address = key := by
      unfold indexChunk at h
      rcases h with ⟨hnone, hcame⟩ | ⟨hnone, hcame⟩
      · rw [(unmark_same _ owner address).blobs] at hcame
        have hblob : ((v.blobs.insert (chunkKey owner address) _)[key]?).isSome := hcame
        rw [Table.getElem?_insert'] at hblob
        split_ifs at hblob with hsame
        · exact hsame
        · rw [hnone] at hblob
          cases hblob
      · rw [(unmark_same _ owner address).chunks] at hcame
        have hrow : ((v.chunks.insert (chunkKey owner address) _)[key]?).isSome := hcame
        rw [Table.getElem?_insert'] at hrow
        split_ifs at hrow with hsame
        · exact hsame
        · rw [hnone] at hrow
          cases hrow
    unfold indexChunk
    rw [evictable_unmark, if_pos hkey]

/-- **No chunk arrives marked.** -/
theorem arrives_unmarked (hput : w.PutsWhole move) (h : w.vault.Rowed)
    (harrives : Arrives w.vault (w.step move).vault key) :
    (w.step move).vault.evictable[key]? = none := by
  rcases w.vault_step move with hstill | ⟨-, op, k, hcalls, hvault⟩ | ⟨-, k, -, hvault⟩
  · rw [hstill] at harrives
    exact absurd harrives (not_arrives ⟨fun _ => id, fun _ => id⟩ key)
  · rw [hvault] at harrives ⊢
    by_cases hop : ∃ owner address sealed, op = .putChunk owner address sealed
    · obtain ⟨owner, address, sealed, rfl⟩ := hop
      rcases arrives_put harrives with hdone | ⟨rfl, rfl, hnone, hsame⟩
      · exact hdone
      · rw [hsame]
        exact hput owner address sealed hcalls hnone
    · have hcame : NoneCame w.vault (after w.vault ((w.vault.stages op).take k)) :=
        (touch_after w.vault op k).keeps (P := NoneCame w.vault)
          (fun htouch hcame => hcame.trans (NoneCame.touch (fun owner address sealed heq =>
            hop ⟨owner, address, sealed, heq⟩) htouch)) ⟨fun _ => id, fun _ => id⟩
      exact absurd harrives (not_arrives hcame key)
  · rw [hvault] at harrives ⊢
    obtain ⟨hblobs, hmarks, -⟩ := after_open w k
    rw [hmarks]
    rcases harrives with ⟨hnone, hcame⟩ | ⟨hnone, -⟩
    · rw [hblobs, hnone] at hcame
      cases hcame
    · -- a row that was not there was under no mark
      by_contra hmark
      have hrow := h key (Option.isSome_iff_ne_none.mpr hmark)
      rw [hnone] at hrow
      cases hrow

/-! ### Marks in a day -/

/-- When a move marks chunks of an owner: the time of the call, if it gets as far. -/
def marksAt (w : VaultWorld K) (owner : UserId) : Move K → Option ℕ
  | .runs (.markEvictable o _ now) => if w.running ∧ o = owner then some now else none
  | .fails (.markEvictable o _ now) k | .crashes (.markEvictable o _ now) k =>
    if w.running ∧ o = owner ∧ 1 < k then some now else none
  | _ => none

/-- How many marks an owner gains on day `d` of its clock, which has reached day `reached` before. A
clock that steps back stays on the day it had reached. -/
def gained (owner : UserId) (d : ℕ) : VaultWorld K → ℕ → List (Move K) → ℕ
  | _, _, [] => 0
  | w, reached, move :: rest =>
    match w.marksAt owner move with
    | none => gained owner d (w.step move) reached rest
    | some now =>
      let reached := max reached (now / day)
      (if reached = d then (w.step move).vault.marksHeld owner - w.vault.marksHeld owner else 0) +
        gained owner d (w.step move) reached rest

/-- The count of an owner is taken out. -/
def Clears (owner : UserId) (w : VaultWorld K) (move : Move K) : Prop :=
  (w.vault.evictQuota[owner]?).isSome ∧ (w.step move).vault.evictQuota[owner]? = none

/-- A move that marks chunks of an owner is a whole marking call. -/
theorem vault_of_marksAt {now : ℕ} (h : w.marksAt owner move = some now) :
    ∃ chunks, (w.step move).vault = (w.vault.markEvictable owner chunks now).1 := by
  have htake : ∀ (chunks : List ChunkId) {k : ℕ}, 1 < k →
      after w.vault ((w.vault.stages (.markEvictable owner chunks now)).take k) =
        (w.vault.markEvictable owner chunks now).1 := by
    intro chunks k hk
    rw [List.take_of_length_le (by simp [stages, steps]; omega)]
    rfl
  cases move with
  | runs op =>
    cases op with
    | markEvictable o chunks at' =>
      rw [marksAt] at h
      split_ifs at h with hwhen
      obtain ⟨hrunning, rfl⟩ := hwhen
      cases h
      refine ⟨chunks, ?_⟩
      rw [step, if_pos hrunning]
      rfl
    | _ => cases h
  | fails op k =>
    cases op with
    | markEvictable o chunks at' =>
      rw [marksAt] at h
      split_ifs at h with hwhen
      obtain ⟨hrunning, rfl, hk⟩ := hwhen
      cases h
      refine ⟨chunks, ?_⟩
      rw [step, if_pos hrunning]
      exact htake chunks hk
    | _ => cases h
  | crashes op k =>
    cases op with
    | markEvictable o chunks at' =>
      rw [marksAt] at h
      split_ifs at h with hwhen
      obtain ⟨hrunning, rfl, hk⟩ := hwhen
      cases h
      refine ⟨chunks, ?_⟩
      rw [step, if_pos hrunning]
      exact htake chunks hk
    | _ => cases h
  | closes => cases h
  | opens => cases h
  | openFails k => cases h

/-- A marking call that makes no mark stops before it does anything. -/
theorem Calls.marks_none {now k : ℕ}
    (hcalls : w.Calls move (.markEvictable owner chunks now) k) (hrunning : w.running = true)
    (h : w.marksAt owner move = none) :
    after w.vault ((w.vault.stages (.markEvictable owner chunks now)).take k) = w.vault := by
  have hearly : ∀ {k : ℕ}, ¬ 1 < k →
      after w.vault ((w.vault.stages (.markEvictable owner chunks now)).take k) = w.vault := by
    intro k hk
    match k with
    | 0 => rfl
    | 1 => rfl
    | k + 2 => exact absurd (by omega) hk
  cases hcalls with
  | runs =>
    rw [marksAt, if_pos ⟨hrunning, rfl⟩] at h
    cases h
  | fails =>
    rw [marksAt] at h
    split_ifs at h with hwhen
    exact hearly fun hk => hwhen ⟨hrunning, rfl, hk⟩
  | crashes =>
    rw [marksAt] at h
    split_ifs at h with hwhen
    exact hearly fun hk => hwhen ⟨hrunning, rfl, hk⟩

/-- A move that marks nothing of an owner leaves its count, or is a `forget_owner` that takes it
out. -/
theorem quota_step (h : w.marksAt owner move = none) :
    (w.step move).vault.evictQuota[owner]? = w.vault.evictQuota[owner]? ∨
      (∃ k, w.Calls move (.forgetOwner owner) k) ∧ (w.step move).vault.evictQuota[owner]? = none := by
  rcases w.vault_step move with hstill | ⟨hrunning, op, k, hcalls, hvault⟩ | ⟨-, k, -, hvault⟩
  · exact .inl (by rw [hstill])
  · rw [hvault]
    cases hop : op.counts owner with
    | false =>
      refine .inl ((touch_after w.vault op k).keeps
        (P := fun v => v.evictQuota[owner]? = w.vault.evictQuota[owner]?) (fun htouch hv => ?_) rfl)
      rw [quota_touch hop htouch, hv]
    | true =>
      cases op with
      | markEvictable o chunks now =>
        obtain rfl := of_decide_eq_true hop
        exact .inl (by rw [hcalls.marks_none hrunning h])
      | forgetOwner o =>
        obtain rfl := of_decide_eq_true hop
        have hquota := (touch_after w.vault (.forgetOwner o) k).keeps
          (P := fun v => v.evictQuota[o]? = w.vault.evictQuota[o]? ∨ v.evictQuota[o]? = none)
          (fun htouch hv => ?_) (.inl rfl)
        · exact hquota.imp_right fun hnone => ⟨⟨k, hcalls⟩, hnone⟩
        · rcases quota_forget htouch with hsame | hnone
          · rw [hsame]
            exact hv
          · exact .inr hnone
      | _ => cases hop
  · obtain ⟨-, -, -, hquota⟩ := after_open w k
    exact .inl (by rw [hvault, hquota])

/-- How many marks a day has left for an owner whose clock has reached `reached`. -/
def marksLeft (d : ℕ) : Option (ℕ × ℕ) → ℕ
  | none => maxEvictablePerDay
  | some (reached, made) => if d < reached then 0 else if d = reached then maxEvictablePerDay -
      made else maxEvictablePerDay

/-- The vault counts on the day the clock has reached. -/
def Counted (reached : ℕ) : Option (ℕ × ℕ) → Prop
  | none => reached = 0
  | some (day', made) => reached = day' ∧ made ≤ maxEvictablePerDay

omit [SealedLength K] in
/-- A marking call moves the count on with the clock. -/
theorem quotaAt_eq {reached : ℕ} (h : Counted reached v.evictQuota[owner]?) (now d : ℕ) :
    (v.quotaAt owner now).1 = max reached (now / day) ∧ (v.quotaAt owner now).2 ≤ maxEvictablePerDay ∧
      marksLeft d (some (v.quotaAt owner now)) ≤ marksLeft d v.evictQuota[owner]? := by
  unfold quotaAt
  cases hquota : v.evictQuota[owner]? with
  | none =>
    rw [hquota] at h
    obtain rfl : reached = 0 := h
    refine ⟨(Nat.zero_max _).symm, Nat.zero_le _, ?_⟩
    dsimp only [marksLeft]
    split_ifs <;> omega
  | some quota =>
    obtain ⟨counted, made⟩ := quota
    rw [hquota] at h
    obtain ⟨rfl, hmade⟩ := h
    dsimp only
    split_ifs with hback
    · exact ⟨(Nat.max_eq_left hback).symm, hmade, Nat.le_refl _⟩
    · refine ⟨(Nat.max_eq_right (by omega)).symm, Nat.zero_le _, ?_⟩
      dsimp only [marksLeft]
      split_ifs <;> omega

/-- What is gained from here on is what the day has left. -/
theorem gained_le_left (owner : UserId) (d : ℕ) :
    ∀ {moves : List (Move K)} {w : VaultWorld K} {reached : ℕ},
    Counted reached w.vault.evictQuota[owner]? → w.Always (fun w move => ¬ w.Clears owner move) moves →
      gained owner d w reached moves ≤ marksLeft d w.vault.evictQuota[owner]?
  | [], _, _, _, _ => Nat.zero_le _
  | move :: rest, w, reached, h, hall => by
    rw [gained]
    cases hmarks : w.marksAt owner move with
    | none =>
      have hquota : (w.step move).vault.evictQuota[owner]? = w.vault.evictQuota[owner]? := by
        rcases quota_step hmarks with hsame | ⟨-, hnone⟩
        · exact hsame
        · have hkept := hall.1
          cases hrow : w.vault.evictQuota[owner]? with
          | none => exact hnone
          | some quota => exact absurd ⟨by rw [hrow]; rfl, hnone⟩ hkept
      rw [← hquota] at h ⊢
      exact gained_le_left owner d h hall.2
    | some now =>
      obtain ⟨chunks, hvault⟩ := vault_of_marksAt hmarks
      obtain ⟨made, hquota, hmore, hbound, hheld⟩ := markEvictable_count w.vault owner chunks now
      obtain ⟨hday, hmade, hleft⟩ := quotaAt_eq h now d
      have hrow : (w.step move).vault.evictQuota[owner]? = some (max reached (now / day), made) := by
        rw [hvault, hquota, Table.getElem?_insert_self', hday]
      have hcounted : Counted (max reached (now / day)) (w.step move).vault.evictQuota[owner]? := by
        rw [hrow]
        exact ⟨rfl, hbound hmade⟩
      have hrest := gained_le_left owner d hcounted hall.2
      rw [hrow] at hrest
      have hgain : (w.step move).vault.marksHeld owner - w.vault.marksHeld owner =
          made - (w.vault.quotaAt owner now).2 := by
        rw [hvault, hheld, Nat.add_sub_cancel_left]
      refine Nat.le_trans ?_ hleft
      dsimp only
      rw [hgain]
      have hnow : marksLeft d (some (w.vault.quotaAt owner now)) =
        if d < max reached (now / day) then 0
          else if d = max reached (now / day) then maxEvictablePerDay - (w.vault.quotaAt owner now).2
          else maxEvictablePerDay := by
        rw [← hday]
        rfl
      rw [hnow]
      have hmax := hbound hmade
      dsimp only [marksLeft] at hrest
      split_ifs at hrest ⊢ <;> omega

/-- **The marks of a vault are one relation about chunks it holds.** In every run of calls,
failures, deaths of the process and opens:

- the two tables of marks have the same rows, as long as no `forget_owner` stops between taking
  marks left over out of the one and out of the other;
- every mark is on a chunk of the index, as long as no rebuild finds a marked chunk without its
  blob, and then no chunk arrives marked, unless by a `put_chunk` that writes the blob of a marked
  chunk and stops;
- from when the vault has no count of an owner until it is forgotten, the owner gains no more than a
  day's marks in each day of its clock. -/
theorem marks_one_relation (moves : List (Move K)) :
    ((start : VaultWorld K).Always MarksWhole moves → (start.run moves).vault.Paired) ∧
      ((start : VaultWorld K).Always MarksOnDisk moves → (start.run moves).vault.Rowed ∧
        ∀ move, (start.run moves).PutsWhole move → ∀ key,
          Arrives (start.run moves).vault ((start.run moves).step move).vault key →
            ((start.run moves).step move).vault.evictable[key]? = none) ∧
      (∀ owner rest, (start.run moves).vault.evictQuota[owner]? = none →
        (start.run moves).Always (fun w move => ¬ w.Clears owner move) rest →
          ∀ d, gained owner d (start.run moves) 0 rest ≤ maxEvictablePerDay) ∧
      ∀ owner move, (start.run moves).Clears owner move →
        ∃ k, (start.run moves).Calls move (.forgetOwner owner) k := by
  refine ⟨fun hwhole => ?_, fun hdisk => ?_, fun owner rest hnone hkept d =>
    ?_, fun owner move hclears => ?_⟩
  · exact hwhole.run (P := fun w => w.vault.Paired) (fun _ _ => paired_step) new_paired
  · have hrowed := hdisk.run (P := fun w => w.vault.Rowed) (fun _ _ => rowed_step) new_rowed
    exact ⟨hrowed, fun move hput key harrives => arrives_unmarked hput hrowed harrives⟩
  · have hcounted : Counted 0 (start.run moves).vault.evictQuota[owner]? := by
      rw [hnone]
      exact rfl
    have hleft := gained_le_left owner d hcounted hkept
    rw [hnone] at hleft
    exact hleft
  · generalize start.run moves = w at hclears ⊢
    cases hmarks : w.marksAt owner move with
    | none =>
      rcases quota_step hmarks with hsame | ⟨hforget, -⟩
      · have hsome := hclears.1
        rw [← hsame, hclears.2] at hsome
        cases hsome
      · exact hforget
    | some now =>
      obtain ⟨chunks, hvault⟩ := vault_of_marksAt hmarks
      obtain ⟨made, hquota, -⟩ := markEvictable_count w.vault owner chunks now
      have hgone := hclears.2
      rw [hvault, hquota, Table.getElem?_insert_self'] at hgone
      cases hgone

/-- A chunk that is stored and marked. -/
def marked : List (Move symbolic) :=
  [.opens, .runs (.putChunk 7 9 [1, 2, 3]), .runs (.markEvictable 7 [9] 100)]

theorem marks_one_relation_marked :
    (start.run marked).vault.Paired ∧ (start.run marked).vault.Rowed ∧
      gained 7 0 (start : VaultWorld symbolic) 0 marked ≤ maxEvictablePerDay := by
  obtain ⟨hpaired, hrowed, -, -⟩ := marks_one_relation marked
  obtain ⟨-, -, hgained, -⟩ := marks_one_relation ([] : List (Move symbolic))
  refine ⟨hpaired ?_, (hrowed ?_).1, hgained 7 marked rfl ?_ 0⟩
  · exact ⟨fun _ _ h => (nomatch h), fun _ _ h => (nomatch h), fun _ _ h => (nomatch h), trivial⟩
  · exact ⟨fun _ _ _ _ _ h => (nomatch h), fun _ h => (nomatch h), fun _ h => (nomatch h), trivial⟩
  · exact ⟨fun h => (nomatch h.1), fun h => (nomatch h.1), fun h => (nomatch h.1), trivial⟩

/-! ### Marks left behind -/

/-- Store chunks without bytes. -/
def puts (owner : UserId) (chunks : List ChunkId) :
    List (Move K) := chunks.map fun chunk => .runs (.putChunk owner chunk [])

theorem gained_cons (h : w.marksAt owner move = none) (d reached : ℕ)
    (rest : List (Move K)) :
    gained owner d w reached (move :: rest) = gained owner d (w.step move) reached rest := by
  rw [gained, h]

theorem gained_puts (owner : UserId) (d reached : ℕ) (rest : List (Move K)) :
    ∀ (chunks : List ChunkId) (w : VaultWorld K),
      gained owner d w reached (puts owner chunks ++ rest) =
        gained owner d (w.run (puts owner chunks)) reached rest
  | [], _ => rfl
  | _ :: chunks, _ => gained_puts owner d reached rest chunks _

/-- A chunk that is held and not marked. -/
def Fresh (owner : UserId) (v : Depot K) (chunk : ChunkId) : Prop :=
  (v.chunks[chunkKey owner chunk]?).isSome ∧ v.evictable[chunkKey owner chunk]? = none

omit [SealedLength K] in
/-- A chunk just stored is held and not marked, and so are those that were. -/
theorem Fresh.put (v : Depot K) {chunk other : ChunkId} (sealed : Bytes)
    (h : chunk = other ∨ Fresh owner v other) :
    Fresh owner (indexChunk owner chunk (writeBlob owner chunk sealed v)) other := by
  unfold Fresh indexChunk
  rw [evictable_unmark, (unmark_same _ owner chunk).chunks]
  show ((v.chunks.insert (chunkKey owner chunk) _)[_]?).isSome ∧
    (if _ then none else v.evictable[_]?) = none
  rw [Table.getElem?_insert']
  by_cases hkey : chunkKey owner chunk = chunkKey owner other
  · rw [if_pos hkey, if_pos hkey]
    exact ⟨rfl, rfl⟩
  · rw [if_neg hkey, if_neg hkey]
    exact h.resolve_left fun hsame => hkey (by rw [hsame])

theorem step_put (hrunning : w.running = true) (owner : UserId) (chunk : ChunkId) :
    w.step (.runs (.putChunk owner chunk [])) =
      { w with vault := indexChunk owner chunk (writeBlob owner chunk [] w.vault) } := by
  rw [step, if_pos hrunning]
  rfl

theorem run_puts (owner : UserId) : ∀ (chunks : List ChunkId) {w : VaultWorld K}, w.running = true →
    (w.run (puts owner chunks)).running = true ∧
      (w.run (puts owner chunks)).vault.evictQuota[owner]? = w.vault.evictQuota[owner]? ∧
      ∀ chunk, chunk ∈ chunks ∨ Fresh owner w.vault chunk →
        Fresh owner (w.run (puts owner chunks)).vault chunk
  | [], _, hrunning => ⟨hrunning, rfl, fun _ h => h.resolve_left List.not_mem_nil⟩
  | chunk :: rest, w, hrunning => by
    have hrest : w.run (puts owner (chunk :: rest)) =
        (w.step (.runs (.putChunk owner chunk []))).run (puts owner rest) := rfl
    have hstep := step_put hrunning owner chunk
    have hquota : (w.step (.runs (.putChunk owner chunk []))).vault.evictQuota[owner]? =
        w.vault.evictQuota[owner]? :=
      (quota_step rfl).resolve_right fun hforget => nomatch hforget.1
    have hrun : (w.step (.runs (.putChunk owner chunk []))).running = true := by
      rw [hstep]
      exact hrunning
    obtain ⟨hstill, hkept, hfresh⟩ := run_puts owner rest hrun
    rw [hrest]
    refine ⟨hstill, hkept.trans hquota, fun other h => hfresh other ?_⟩
    rcases h with hmem | hold
    · rcases List.mem_cons.mp hmem with rfl | hmem
      · exact .inr (hstep.symm ▸ Fresh.put w.vault [] (.inl rfl))
      · exact .inl hmem
    · exact .inr (hstep.symm ▸ Fresh.put w.vault [] (.inr hold))

/-- Marking chunks that are held and not marked gains a mark for each. -/
theorem gained_mark (hrunning : w.running = true)
    (hnone : w.vault.evictQuota[owner]? = none) (hnodup : chunks.Nodup)
    (hfresh : ∀ chunk ∈ chunks, Fresh owner w.vault chunk)
    (hroom : chunks.length ≤ maxEvictablePerDay) (rest : List (Move K)) :
    gained owner 0 w 0 (.runs (.markEvictable owner chunks 0) :: rest) =
      chunks.length + gained owner 0 (w.step (.runs (.markEvictable owner chunks 0))) 0 rest := by
  have hmarks : w.marksAt owner (.runs (.markEvictable owner chunks 0)) = some 0 :=
    if_pos ⟨hrunning, rfl⟩
  have hvault : (w.step (.runs (.markEvictable owner chunks 0))).vault =
      (w.vault.markEvictable owner chunks 0).1 := by
    rw [step, if_pos hrunning]
    rfl
  have hquota : (w.vault.quotaAt owner 0).2 = 0 := by
    unfold quotaAt
    rw [hnone]
  have hheld := marksHeld_markEvictable 0 hnodup hfresh (by rw [hquota, Nat.zero_add]; exact hroom)
  rw [gained, hmarks]
  dsimp only
  have hday : max 0 (0 / day) = 0 := rfl
  rw [hday, if_pos rfl, hvault, hheld, Nat.add_sub_cancel_left]

/-- A day's worth of chunks. -/
def daysChunks : List ChunkId := (List.range maxEvictablePerDay).map (Fin.ofNat (2 ^ 256))

/-- An owner marks chunks, is forgotten, and comes back on the same day. -/
def comesBack (chunks : List ChunkId) : List (Move symbolic) :=
  .opens :: (puts 7 chunks ++ (.runs (.markEvictable 7 chunks 0) :: .runs (.forgetOwner 7) ::
    (puts 7 [0] ++ [.runs (.markEvictable 7 [0] 0)])))

theorem nodup_daysChunks : daysChunks.Nodup := by
  refine List.Nodup.map_on (fun i hi j hj hsame => ?_) List.nodup_range
  have hbound : maxEvictablePerDay < 2 ^ 256 := by decide
  have hval := congrArg Fin.val hsame
  rw [Fin.val_ofNat, Fin.val_ofNat, Nat.mod_eq_of_lt ((List.mem_range.mp hi).trans hbound),
    Nat.mod_eq_of_lt ((List.mem_range.mp hj).trans hbound)] at hval
  exact hval

theorem length_daysChunks : daysChunks.length = maxEvictablePerDay := by
  rw [daysChunks, List.length_map, List.length_range]

/-- Once forgotten, the owner has a new day's marks. -/
theorem gained_comesBack (hnodup : chunks.Nodup) (hroom : chunks.length ≤ maxEvictablePerDay) :
    gained 7 0 (start : VaultWorld symbolic) 0 (comesBack chunks) = chunks.length + 1 := by
  -- the first day's marks
  obtain ⟨hrun, hquota, hfresh⟩ :=
    run_puts (w := (start : VaultWorld symbolic).step .opens) 7 chunks rfl
  have hopens : (start : VaultWorld symbolic).marksAt 7 .opens = none := rfl
  rw [comesBack, gained_cons hopens, gained_puts]
  generalize ((start : VaultWorld symbolic).step .opens).run (puts 7 chunks) =
    w at hrun hquota hfresh ⊢
  have hnever : ((start : VaultWorld symbolic).step .opens).vault.evictQuota[(7 : UserId)]? =
    none := rfl
  rw [gained_mark hrun (hquota.trans hnever) hnodup (fun chunk hchunk => hfresh chunk (.inl hchunk))
    hroom]
  -- forgotten, and once more
  have hmarked : (w.step (.runs (.markEvictable 7 chunks 0))).running = true := by
    rw [step, if_pos hrun]
    exact hrun
  generalize w.step (.runs (.markEvictable 7 chunks 0)) = w' at hmarked ⊢
  have hforget : w'.step (.runs (.forgetOwner 7)) =
      { w' with vault := after w'.vault (w'.vault.stages (.forgetOwner 7)) } := by
    rw [step, if_pos hmarked]
  have hcleared : (w'.step (.runs (.forgetOwner 7))).vault.evictQuota[(7 : UserId)]? = none := by
    rw [hforget]
    show (after w'.vault (w'.vault.forgetStages 7)).evictQuota[(7 : UserId)]? = none
    rw [after_forgetStages]
    exact Table.getElem?_erase_self' ..
  have hrunning : (w'.step (.runs (.forgetOwner 7))).running = true := by
    rw [hforget]
    exact hmarked
  have hmute : w'.marksAt 7 (.runs (.forgetOwner 7)) = none := rfl
  rw [gained_cons hmute, gained_puts]
  obtain ⟨hrun', hquota', hfresh'⟩ := run_puts 7 [0] hrunning
  rw [gained_mark hrun' (hquota'.trans hcleared) (List.nodup_singleton _)
    (fun chunk hchunk => hfresh' chunk (.inl hchunk)) (by decide), gained, List.length_singleton]

/-- A marked chunk whose removal dies between blob and row, and the next open. -/
def bereft : List (Move symbolic) :=
  [.opens, .runs (.putChunk 7 9 [1, 2, 3]), .runs (.markEvictable 7 [9] 100),
    .crashes (.removeChunk 7 9) 2, .opens]

/-- Then the owner is forgotten, and that dies between the two tables of marks. -/
def unordered : List (Move symbolic) := bereft ++ [.crashes (.forgetOwner 7) 2, .opens]

/-- Or the chunk is sent once more, and that dies between blob and row. -/
def resent : List (Move symbolic) := bereft ++ [.crashes (.putChunk 7 9 [4, 5]) 2]

/-- What the rebuild leaves behind, and what comes of it: a mark without a row; after a
`forget_owner` that dies, an order row without a mark; a chunk that comes in marked because an
earlier copy of it was. And a forgotten owner that comes back gains more marks than a day has. -/
theorem marks_left_behind :
    ((start.run bereft).vault.evictable[chunkKey 7 9]? = some 100 ∧
        (start.run bereft).vault.chunks[chunkKey 7 9]? = none) ∧
      ((start.run unordered).vault.evictable[chunkKey 7 9]? = none ∧
        ((start.run unordered).vault.evictionOrder[orderKey 7 100 9]?).isSome = true) ∧
      ((start.run resent).vault.chunks[chunkKey 7 9]? = none ∧
        ((start.run resent).step .opens).vault.chunks[chunkKey 7 9]? = some 2 ∧
        ((start.run resent).step .opens).vault.evictable[chunkKey 7 9]? = some 100) ∧
      maxEvictablePerDay < gained 7 0 (start : VaultWorld symbolic) 0 (comesBack daysChunks) := by
  refine ⟨by decide +kernel, by decide +kernel, by decide +kernel, ?_⟩
  rw [gained_comesBack nodup_daysChunks (Nat.le_of_eq length_daysChunks), length_daysChunks]
  exact Nat.lt_succ_self _

end VaultWorld

end Itsanas
