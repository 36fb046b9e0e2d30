/-
# Making room

`evict_marked` of `itsanas-store/src/vault.rs`: to make room for an owner, its marked chunks go,
oldest mark first, until so many bytes are free. The choice is made on the order table and the
sizes of the index; what is freed is what the rows of the index then come to. The two agree where
the tables of marks are one relation (`Depot.Paired`), for then no chunk is chosen twice, and none
that is not marked. Then it is all or nothing (`Depot.evictMarked_all_or_nothing`): either nothing
goes, or the shortest beginning of the owner's standing marks that reaches what is needed.

An order row without a mark, as a `forget_owner` that dies may leave it, spoils this: a chunk that
its owner did not mark is taken (`VaultWorld.unmarked_evicted`).
-/
import Itsanas.Evictable

namespace Itsanas

open Stages

variable {K : Crypto}

namespace Depot

variable {v : Depot K}

/-- The bytes the index has for the chunks of some marks. -/
def sizesOfMarks (v : Depot K) (owner : UserId) (marks : List (ℕ × ChunkId)) : ℕ :=
  (marks.map fun mark => (v.chunks[chunkKey owner mark.2]?).getD 0).sum

/-- The standing marks of an owner, oldest first, and by chunk where they are of one time. -/
def standing (v : Depot K) (owner : UserId) (now : ℕ) : List (ℕ × ChunkId) :=
  ((v.evictable.toList.filterMap fun r =>
    if (ofLex r.1).1 = owner then some (r.2, (ofLex r.1).2) else none).filter
    fun mark => markStands mark.1 now).insertionSort fun a b => toLex a ≤ toLex b

/-! ### The choice -/

/-- What is looked at is the beginning of the marks: those that stand are chosen, the others are met
on the way, and it ends as soon as there is enough. -/
theorem chooseEvictions_spec (owner : UserId) (needed now : ℕ) :
    ∀ (marks chosen expired : List (ℕ × ChunkId)) (room : ℕ), ∃ seen, seen <+: marks ∧
      v.chooseEvictions owner needed now chosen expired room marks =
        (chosen ++ seen.filter (fun mark => markStands mark.1 now),
          expired ++ seen.filter (fun mark => !markStands mark.1 now),
          room + v.sizesOfMarks owner (seen.filter fun mark => markStands mark.1 now)) ∧
      (chosen.length + expired.length ≤ maxEvictPerCall →
        chosen.length + expired.length + seen.length ≤ maxEvictPerCall) ∧
      ∀ fewer, fewer <+: (seen.filter fun mark => markStands mark.1 now) →
        fewer ≠ (seen.filter fun mark => markStands mark.1 now) →
          room + v.sizesOfMarks owner fewer < needed
  | [], chosen, expired, room => by
    refine ⟨[], List.prefix_refl _, ?_, id, fun fewer hstarts hne =>
      absurd (List.prefix_nil.mp hstarts) hne⟩
    rw [chooseEvictions, List.filter_nil, List.filter_nil, List.append_nil, List.append_nil]
    rfl
  | (at', chunk) :: rest, chosen, expired, room => by
    unfold chooseEvictions
    by_cases hstop : needed ≤ room ∨ maxEvictPerCall ≤ chosen.length + expired.length
    · refine ⟨[], List.nil_prefix, ?_, id, fun fewer hstarts hne =>
        absurd (List.prefix_nil.mp hstarts) hne⟩
      rw [if_pos hstop, List.filter_nil, List.filter_nil, List.append_nil, List.append_nil]
      rfl
    rw [if_neg hstop]
    have hless : room < needed := Nat.not_le.mp fun h => hstop (.inl h)
    have hroom : chosen.length + expired.length < maxEvictPerCall :=
      Nat.not_le.mp fun h => hstop (.inr h)
    by_cases hstands : markStands at' now = true
    · rw [if_pos hstands]
      obtain ⟨seen, hseen, hchoice, hbound, hfewer⟩ := chooseEvictions_spec owner needed now rest
        (chosen ++ [(at', chunk)]) expired (room + (v.chunks[chunkKey owner chunk]?).getD 0)
      have hkept : ((at', chunk) :: seen).filter (fun mark => markStands mark.1 now) =
          (at', chunk) :: seen.filter fun mark => markStands mark.1 now :=
            List.filter_cons_of_pos hstands
      have hmet : ((at', chunk) :: seen).filter (fun mark => !markStands mark.1 now) =
          seen.filter fun mark => !markStands mark.1 now :=
        List.filter_cons_of_neg (by rw [hstands]; decide)
      refine ⟨(at', chunk) :: seen, List.cons_prefix_cons.mpr ⟨rfl, hseen⟩, ?_, fun _ =>
        ?_, fun fewer hstarts hne => ?_⟩
      · rw [hchoice, hkept, hmet, List.append_assoc, Nat.add_assoc]
        rfl
      · rw [List.length_append, List.length_singleton] at hbound
        rw [List.length_cons]
        omega
      · rw [hkept] at hstarts hne
        cases fewer with
        | nil => exact hless
        | cons first fewer =>
          obtain ⟨rfl, htail⟩ := List.cons_prefix_cons.mp hstarts
          have hrest := hfewer fewer htail fun heq => hne (by rw [heq])
          rw [Nat.add_assoc] at hrest
          exact hrest
    · rw [if_neg hstands]
      obtain ⟨seen, hseen, hchoice, hbound, hfewer⟩ :=
        chooseEvictions_spec owner needed now rest chosen
        (expired ++ [(at', chunk)]) room
      have hkept : ((at', chunk) :: seen).filter (fun mark => markStands mark.1 now) =
          seen.filter fun mark => markStands mark.1 now := List.filter_cons_of_neg hstands
      have hmet : ((at', chunk) :: seen).filter (fun mark => !markStands mark.1 now) =
          (at', chunk) :: seen.filter fun mark => !markStands mark.1 now :=
        List.filter_cons_of_pos (by rw [Bool.eq_false_iff.mpr hstands]; rfl)
      refine ⟨(at', chunk) :: seen, List.cons_prefix_cons.mpr ⟨rfl, hseen⟩, ?_, fun _ => ?_, ?_⟩
      · rw [hchoice, hkept, hmet, List.append_assoc]
        rfl
      · rw [List.length_append, List.length_singleton] at hbound
        rw [List.length_cons]
        omega
      · rw [hkept]
        exact hfewer

/-! ### The marks of an owner -/

/-- The marks of an owner are in the order of the table. -/
theorem marksOf_pairwise (v : Depot K) (owner : UserId) :
    (v.marksOf owner).Pairwise fun a b => toLex a < toLex b := by
  unfold marksOf
  refine List.Pairwise.filterMap _ (fun r r' hlt mark hmark mark' hmark' => ?_)
    Std.ExtTreeMap.ordered_keys_toList
  split_ifs at hmark with howner
  split_ifs at hmark' with howner'
  cases hmark
  cases hmark'
  have hkeys : r.1 < r'.1 := compare_lt_iff_lt.mp hlt
  rcases Prod.Lex.lt_iff.mp hkeys with hfirst | ⟨-, hsecond⟩
  · rw [howner, howner'] at hfirst
    exact absurd hfirst (lt_irrefl _)
  · exact hsecond

/-- Where the tables of marks are one relation, the order table has the standing marks in order. -/
theorem Paired.standing_eq (h : v.Paired) (owner : UserId) (now : ℕ) :
    v.standing owner now = (v.marksOf owner).filter fun mark => markStands mark.1 now := by
  have hmem : ∀ mark : ℕ × ChunkId, mark ∈ (v.evictable.toList.filterMap fun r =>
      if (ofLex r.1).1 = owner then some (r.2, (ofLex r.1).2) else none) ↔ mark ∈ v.marksOf owner := by
    intro mark
    rw [mem_marksOf, ← h owner mark.1 mark.2]
    constructor
    · intro hmark
      obtain ⟨r, hr, hmark⟩ := List.mem_filterMap.mp hmark
      split_ifs at hmark with howner
      cases hmark
      rw [← howner]
      exact Table.mem_toList.mp hr
    · intro hmark
      exact List.mem_filterMap.mpr
        ⟨(chunkKey owner mark.2, mark.1), Table.mem_toList.mpr hmark, if_pos rfl⟩
  have hsorted := (v.marksOf_pairwise owner).filter fun mark => markStands mark.1 now
  have hnodup : (v.evictable.toList.filterMap fun r =>
      if (ofLex r.1).1 = owner then some (r.2, (ofLex r.1).2) else none).Nodup := by
    refine List.Pairwise.filterMap _ (fun r r' hne mark hmark mark' hmark' heq => ?_)
      (Table.toList_pairwise v.evictable)
    split_ifs at hmark with howner
    split_ifs at hmark' with howner'
    cases hmark
    cases hmark'
    have hkeys : ofLex r.1 = ofLex r'.1 := Prod.ext (howner.trans howner'.symm) (Prod.mk.inj heq).2
    exact hne (congrArg toLex hkeys)
  have htotal : Std.Total fun a b : ℕ × ChunkId => toLex a ≤ toLex b :=
    ⟨fun a b => le_total (toLex a) (toLex b)⟩
  have htrans : IsTrans (ℕ × ChunkId) fun a b => toLex a ≤ toLex b :=
    ⟨fun a b c hab hbc => le_trans hab hbc⟩
  refine List.Perm.eq_of_pairwise (fun a b _ _ hab hba => toLex_inj.mp (le_antisymm hab hba))
    (List.pairwise_insertionSort _ _) (hsorted.imp le_of_lt) ((List.perm_insertionSort _ _).trans ?_)
  refine (List.perm_ext_iff_of_nodup (hnodup.filter _) (hsorted.imp fun hlt heq => ?_)).mpr
    fun mark => ?_
  · exact absurd hlt (by rw [heq]; exact lt_irrefl _)
  · rw [List.mem_filter, List.mem_filter, hmem]

/-- No two marks of an owner are on one chunk. -/
theorem Paired.nodup_chunks (h : v.Paired) (owner : UserId) :
    ((v.marksOf owner).map Prod.snd).Nodup := by
  refine List.pairwise_map.mpr ((v.marksOf_pairwise owner).imp_of_mem fun {a b} ha hb hlt heq => ?_)
  have hfirst := (h owner a.1 a.2).mpr (mem_marksOf.mp ha)
  have hsecond := (h owner b.1 b.2).mpr (mem_marksOf.mp hb)
  rw [heq, hsecond] at hfirst
  have hsame : a = b := Prod.ext (Option.some.inj hfirst).symm heq
  rw [hsame] at hlt
  exact lt_irrefl _ hlt

/-! ### What goes -/

/-- So many bytes of an owner's are gone from the totals, and nothing of anybody else's. -/
structure Freed (owner : UserId) (bytes : ℕ) (v v' : Depot K) : Prop where
  totalled : v'.Totalled
  held : v'.heldBytes + bytes = v.heldBytes
  own : v'.heldBytesFor owner + bytes = v.heldBytesFor owner
  others : ∀ o, o ≠ owner → v'.heldBytesFor o = v.heldBytesFor o

theorem Freed.trans {v' v'' : Depot K} {owner : UserId} {a b : ℕ} (h : Freed owner a v v')
    (h' : Freed owner b v' v'') :
    Freed owner (a + b) v v'' where
  totalled := h'.totalled
  held := by rw [← h.held, ← h'.held, Nat.add_comm a b, Nat.add_assoc]
  own := by rw [← h.own, ← h'.own, Nat.add_comm a b, Nat.add_assoc]
  others o ho := (h'.others o ho).trans (h.others o ho)

theorem Totalled.heldBytes_eq (h : v.Totalled) :
    v.heldBytes = Table.weigh (fun _ size => size) v.chunks +
      v.chainBytes.weigh fun _ bytes => bytes := by
  rw [heldBytes, h.total]

theorem Totalled.heldBytesFor_eq (h : v.Totalled) (owner : UserId) :
    v.heldBytesFor owner = sizesOf owner v.chunks +
    v.chainBytes.weigh fun key bytes => if (ofLex key).1 = owner then bytes else 0 := by
  rw [heldBytesFor, h.owners]

/-- The same bytes, whatever is marked. -/
theorem Totalled.freed_same (h : v.Totalled) {v' : Depot K} (hs : SameBytes v v') (owner : UserId) :
    Freed owner 0 v v' :=
  ⟨h.same hs, hs.heldBytes, hs.heldBytesFor owner, fun o _ => hs.heldBytesFor o⟩

theorem Totalled.freed_dropChunk (h : v.Totalled) (owner : UserId) (address : ChunkId) :
    Freed owner ((v.chunks[chunkKey owner address]?).getD 0) v (v.dropChunk owner address) := by
  have htotalled : (v.dropChunk owner address).Totalled := by
    have herased : (eraseBlob owner address v).Totalled := h.congr rfl rfl rfl
    exact herased.dropRow owner address
  have hchunks : (v.dropChunk owner address).chunks = v.chunks.erase (chunkKey owner address) := by
    rw [← dropChunk_eq]
    exact chunks_dropRow owner address _
  have hchains : (v.dropChunk owner address).chainBytes = v.chainBytes :=
    (dropRow_chains owner address (eraseBlob owner address v)).2
  refine ⟨htotalled, ?_, ?_, fun o ho => ?_⟩
  · have hsum := total_erase_chunk v.chunks (chunkKey owner address)
    rw [htotalled.heldBytes_eq, h.heldBytes_eq, hchunks, hchains]
    omega
  · have hsum := sizesOf_erase v.chunks owner address owner
    rw [if_pos rfl] at hsum
    rw [htotalled.heldBytesFor_eq, h.heldBytesFor_eq, hchunks, hchains]
    omega
  · have hsum := sizesOf_erase v.chunks owner address o
    rw [if_neg (Ne.symm ho), Nat.add_zero] at hsum
    rw [htotalled.heldBytesFor_eq, h.heldBytesFor_eq, hchunks, hchains, hsum]

/-- Take out the chunks of some marks, and count what goes. -/
def takeOut (owner : UserId) (s : Depot K × ℕ) (mark : ℕ × ChunkId) : Depot K × ℕ :=
  (dropMark owner (s.1.dropChunk owner mark.2) mark, s.2 + (s.1.chunks[chunkKey owner mark.2]?).getD 0)

theorem tables_dropChunk (v : Depot K) (owner : UserId) (address : ChunkId) :
    (v.dropChunk owner address).chunks = v.chunks.erase (chunkKey owner address) ∧
      (v.dropChunk owner address).blobs = v.blobs.erase (chunkKey owner address) := by
  rw [← dropChunk_eq]
  exact ⟨chunks_dropRow owner address _, (marks_dropRow owner address _).2.2.2⟩

/-- **Taking out chunks that differ** frees what the index has for them, and takes those and no
other. -/
theorem takeOut_spec (owner : UserId) : ∀ {marks : List (ℕ × ChunkId)} {s : Depot K × ℕ},
    (marks.map Prod.snd).Nodup → s.1.Totalled →
    let s' := marks.foldl (takeOut owner) s
    s'.2 = s.2 + s.1.sizesOfMarks owner marks ∧ Freed owner (s.1.sizesOfMarks owner marks) s.1 s'.1 ∧
      ∀ key : UserId ×ₗ ChunkId,
        (s'.1.chunks[key]? =
          if key ∈ marks.map (fun mark => chunkKey owner mark.2) then none else s.1.chunks[key]?) ∧
        s'.1.blobs[key]? =
          if key ∈ marks.map (fun mark => chunkKey owner mark.2) then none else s.1.blobs[key]?
  | [], s, _, h => ⟨rfl, h.freed_same (.refl s.1) owner, fun key => ⟨rfl, rfl⟩⟩
  | mark :: rest, s, hnodup, h => by
    obtain ⟨hout, hnodup⟩ := List.nodup_cons.mp hnodup
    have hdrop := h.freed_dropChunk owner mark.2
    have hone := hdrop.trans (hdrop.totalled.freed_same (dropMark_same owner _ mark) owner)
    obtain ⟨hchunks, hblobs⟩ := tables_dropChunk s.1 owner mark.2
    -- the other chunks have the sizes they had
    have hsizes : (takeOut owner s mark).1.sizesOfMarks owner rest = s.1.sizesOfMarks owner rest := by
      refine congrArg List.sum (List.map_congr_left fun other hother => ?_)
      show ((s.1.dropChunk owner mark.2).chunks[chunkKey owner other.2]?).getD 0 = _
      rw [hchunks, Table.getElem?_erase_ne]
      intro hkey
      exact hout (List.mem_map.mpr ⟨other, hother, (chunkKey_inj hkey).2.symm⟩)
    obtain ⟨hcount, hfreed, hrest⟩ :=
      takeOut_spec owner (s := takeOut owner s mark) hnodup hone.totalled
    rw [hsizes] at hcount hfreed
    refine ⟨?_, ?_, fun key => ?_⟩
    · rw [List.foldl_cons, hcount]
      exact Nat.add_assoc ..
    · exact hone.trans hfreed
    · obtain ⟨hrows, hbytes⟩ := hrest key
      have hrow : (takeOut owner s mark).1.chunks[key]? =
          if chunkKey owner mark.2 = key then none else s.1.chunks[key]? := by
        rw [← Table.getElem?_erase', ← hchunks]
        rfl
      have hblob : (takeOut owner s mark).1.blobs[key]? =
          if chunkKey owner mark.2 = key then none else s.1.blobs[key]? := by
        rw [← Table.getElem?_erase', ← hblobs]
        rfl
      rw [List.foldl_cons, hrows, hbytes, hrow, hblob, List.map_cons]
      by_cases hkey : chunkKey owner mark.2 = key
      · subst hkey
        rw [if_pos rfl, if_pos rfl, ite_self, ite_self, if_pos List.mem_cons_self,
          if_pos List.mem_cons_self]
        exact ⟨rfl, rfl⟩
      · have hmem : (key ∈ chunkKey owner mark.2 :: rest.map fun mark => chunkKey owner mark.2) ↔
            key ∈ rest.map fun mark => chunkKey owner mark.2 :=
          ⟨fun h => (List.mem_cons.mp h).resolve_left (Ne.symm hkey), List.mem_cons_of_mem _⟩
        rw [if_neg hkey, if_neg hkey, if_congr hmem rfl rfl, if_congr hmem rfl rfl]
        exact ⟨rfl, rfl⟩

/-! ### All or nothing -/

/-- What an eviction that makes room does. -/
structure Evicted (v : Depot K) (owner : UserId) (needed now : ℕ) (v' : Depot K) (freed : ℕ)
    (taken : List (ℕ × ChunkId)) : Prop where
  /-- The chunks taken are those of the oldest standing marks. -/
  oldest : taken <+: v.standing owner now
  enough : needed ≤ freed
  /-- Fewer of them would not do. -/
  shortest : ∀ fewer, fewer <+: taken → fewer ≠ taken → v.sizesOfMarks owner fewer < needed
  bounded : taken.length ≤ maxEvictPerCall
  stands : ∀ mark ∈ taken, now - mark.1 < markExpires
  sizes : freed = v.sizesOfMarks owner taken
  /-- They and no other are gone from the index. -/
  chunks : ∀ key : UserId ×ₗ ChunkId, v'.chunks[key]? =
    if key ∈ taken.map (fun mark => chunkKey owner mark.2) then none else v.chunks[key]?
  /-- And from the disk. -/
  blobs : ∀ key : UserId ×ₗ ChunkId, v'.blobs[key]? =
    if key ∈ taken.map (fun mark => chunkKey owner mark.2) then none else v.blobs[key]?
  bytes : Freed owner freed v v'

/-- What the marked chunks of an owner come to, as far as they are looked at for so much room. -/
def spareRoom (v : Depot K) (owner : UserId) (needed now : ℕ) : ℕ :=
  (v.chooseEvictions owner needed now [] [] 0 (v.marksOf owner)).2.2

/-- **Eviction is all or nothing**, where the tables of marks are one relation and the totals those
of the index. -/
theorem evictMarked_all_or_nothing (hpaired : v.Paired) (htotalled : v.Totalled) (owner : UserId)
    {needed : ℕ} (now : ℕ) (hneeded : 0 < needed) :
    (v.spareRoom owner needed now < needed ∧ (v.evictMarked owner needed now).2 = 0 ∧
        SameBytes v (v.evictMarked owner needed now).1) ∨
      (v.evictMarked owner needed now).2 = v.spareRoom owner needed now ∧
        ∃ taken, Evicted v owner needed now (v.evictMarked owner needed now).1
          (v.evictMarked owner needed now).2
          taken := by
  obtain ⟨seen, hseen, hchoice, hbound, hfewer⟩ :=
    @chooseEvictions_spec K v owner needed now (v.marksOf owner) [] [] 0
  rw [List.nil_append, List.nil_append, Nat.zero_add] at hchoice
  unfold evictMarked spareRoom
  rw [if_neg (Nat.ne_of_gt hneeded), hchoice]
  dsimp only
  set taken := seen.filter fun mark => markStands mark.1 now with htaken
  set expired := seen.filter fun mark => !markStands mark.1 now
  have hsame := dropMarks_same owner expired v
  by_cases hnothing : taken.isEmpty ∨ v.sizesOfMarks owner taken < needed
  · have hshort : v.sizesOfMarks owner taken < needed := by
      rcases hnothing with hempty | hshort
      · rw [List.isEmpty_iff.mp hempty]
        exact hneeded
      · exact hshort
    rw [if_pos hnothing]
    exact .inl ⟨hshort, rfl, hsame⟩
  rw [if_neg hnothing]
  have henough : needed ≤ v.sizesOfMarks owner taken := Nat.not_lt.mp fun h => hnothing (.inr h)
  have hstanding : taken <+: v.standing owner now := by
    rw [hpaired.standing_eq]
    exact hseen.filter _
  have hnodup : (taken.map Prod.snd).Nodup :=
    (hpaired.nodup_chunks owner).sublist ((List.filter_sublist.trans hseen.sublist).map Prod.snd)
  have hsizes : (expired.foldl (dropMark owner) v).sizesOfMarks owner taken =
      v.sizesOfMarks owner taken := by
    unfold sizesOfMarks
    rw [hsame.chunks]
  obtain ⟨hcount, hfreed, htables⟩ :=
    takeOut_spec owner (s := (expired.foldl (dropMark owner) v, 0)) hnodup
    (htotalled.same hsame)
  rw [hsizes] at hcount hfreed
  rw [Nat.zero_add] at hcount
  have hall : Freed owner (v.sizesOfMarks owner taken) v (taken.foldl (takeOut owner)
      (expired.foldl (dropMark owner) v, 0)).1 := by
    have htrans := (htotalled.freed_same hsame owner).trans hfreed
    rwa [Nat.zero_add] at htrans
  refine .inr ⟨hcount, taken, ?_⟩
  show Evicted v owner needed now (taken.foldl (takeOut owner) (expired.foldl (dropMark owner) v, 0)).1
    (taken.foldl (takeOut owner) (expired.foldl (dropMark owner) v, 0)).2 taken
  rw [hcount]
  refine ⟨hstanding, henough, fun fewer hstarts hne => ?_, ?_, fun mark hmark => ?_, rfl, fun key =>
    ?_, fun key => ?_, hall⟩
  · have hless := hfewer fewer hstarts hne
    rwa [Nat.zero_add] at hless
  · have hlength := hbound (Nat.zero_le _)
    have hpart : taken.length ≤ seen.length := List.length_filter_le _ _
    simp only [List.length_nil, Nat.zero_add] at hlength
    omega
  · exact of_decide_eq_true (List.mem_filter.mp hmark).2
  · rw [(htables key).1, hsame.chunks]
  · rw [(htables key).2, hsame.blobs]

end Depot

/-! ### Along a run -/

namespace VaultWorld

open Depot

variable [SealedLength K]

/-- The totals are those of the index, whenever the vault is open or would be opened as it is. -/
def Sums (w : VaultWorld K) : Prop := w.running = true ∨ w.reconciles = false → w.vault.Totalled

theorem totalled_backfill {v : Depot K} (h : v.Totalled) : v.backfillSegmentBytes.Totalled := by
  obtain ⟨bytes, hbytes⟩ := v.backfill_eq
  rw [hbytes]
  exact h.congr rfl rfl rfl

/-- Wherever an open stops, it has counted to the end or has not begun to count. -/
theorem totalled_open {w : VaultWorld K} {k : ℕ} (h : w.reconciles = false → w.vault.Totalled)
    (hdone : w.reconciles = true → w.vault.reconcileStages.length ≤ k) :
    (after w.vault (w.openStages.take k)).Totalled := by
  have hlast : ∀ (v : Depot K) (n : ℕ), v.Totalled →
      (after v ([(⟨.unsure, backfillSegmentBytes⟩ : VaultStage K)].take n)).Totalled := by
    intro v n hv
    cases n with
    | zero => exact hv
    | succ n =>
      rw [List.take_succ_cons, List.take_nil]
      exact totalled_backfill hv
  rw [openStages, List.take_append, after_append]
  split_ifs with hreconciles
  · rw [List.take_of_length_le (hdone hreconciles)]
    exact hlast _ _ (reconcile_ok w.vault).totalled
  · rw [List.take_nil]
    exact hlast _ _ (h (Bool.eq_false_iff.mpr hreconciles))

theorem Sums.step {w : VaultWorld K} (h : w.Sums) (move : Move K) : (w.step move).Sums := by
  have hcall : ∀ (op : VaultOp K) (k : ℕ), w.running = true →
      (after w.vault ((w.vault.stages op).take k)).Totalled := fun op k hrunning =>
    (touch_after w.vault op k).keeps Totalled.touch (h (.inl hrunning))
  cases move with
  | runs op =>
    rw [VaultWorld.step]
    split_ifs with hrunning
    · intro _
      have hall := hcall op (w.vault.stages op).length hrunning
      rwa [List.take_length] at hall
    · exact h
  | fails op k =>
    rw [VaultWorld.step]
    split_ifs with hrunning
    · exact fun _ => hcall op k hrunning
    · exact h
  | crashes op k =>
    rw [VaultWorld.step]
    split_ifs with hrunning
    · exact fun _ => hcall op k hrunning
    · exact h
  | closes =>
    rw [VaultWorld.step]
    split_ifs with hrunning
    · exact fun _ => h (.inl hrunning)
    · exact h
  | opens =>
    rw [VaultWorld.step]
    split_ifs with hrunning
    · exact h
    · intro _
      have hopened := totalled_open (w := w) (k := w.openStages.length) (fun hclean => h (.inr hclean))
        (fun hreconciles => by rw [openStages, if_pos hreconciles, List.length_append]; omega)
      rwa [List.take_length] at hopened
  | openFails k =>
    rw [VaultWorld.step]
    split_ifs with hrunning
    · exact h
    · intro hclean
      have hclean := hclean.resolve_left hrunning
      refine totalled_open (fun hw => h (.inr hw)) fun hreconciles => ?_
      -- the mark is clean, so it is the totals that were missing, and they are written last
      simp only [reconciles, Bool.or_eq_false_iff, Bool.not_eq_false', Bool.or_eq_true,
        Bool.and_eq_true,
        decide_eq_true_eq] at hclean hreconciles
      obtain ⟨hmark, htotals⟩ := hclean
      rw [hmark] at hreconciles htotals
      simp only [Bool.false_eq_true, false_or] at hreconciles
      rw [Bool.not_eq_true'] at hreconciles
      rw [hreconciles] at htotals
      simp only [Bool.false_eq_true, false_or] at htotals
      exact htotals.2

theorem paired_of_whole {moves : List (Move K)}
    (hwhole : (start : VaultWorld K).Always MarksWhole moves) :
    (start.run moves).vault.Paired :=
  hwhole.run (P := fun w => w.vault.Paired) (fun _ _ => paired_step) new_paired

/-- In a vault that is open the totals are those of the index. -/
theorem totalled_of_running {moves : List (Move K)}
    (hrunning : (start.run moves : VaultWorld K).running = true) :
    (start.run moves : VaultWorld K).vault.Totalled := by
  have hsums : (start.run moves : VaultWorld K).Sums :=
    List.foldlRecOn (motive := Sums) moves step (fun _ => new_ok.totalled) fun w hw move _ =>
      hw.step move
  exact hsums (.inl hrunning)

/-- **Eviction is all or nothing** in every vault that is open, however it came to be so, if no
`forget_owner` has stopped between taking marks left over out of one table and out of the other. -/
theorem evict_all_or_nothing {moves : List (Move K)}
    (hwhole : (start : VaultWorld K).Always MarksWhole moves)
    (hrunning : (start.run moves).running = true) (owner : UserId) {needed : ℕ} (now : ℕ)
    (hneeded : 0 < needed) :
    let v := (start.run moves).vault
    ((v.evictMarked owner needed now).2 = 0 ∧ SameBytes v (v.evictMarked owner needed now).1) ∨
      ∃ taken, Evicted v owner needed now (v.evictMarked owner needed now).1
          (v.evictMarked owner needed now).2 taken := by
  obtain ⟨-, hnothing⟩ | ⟨-, hevicted⟩ :=
    evictMarked_all_or_nothing (paired_of_whole hwhole) (totalled_of_running hrunning) owner now
      hneeded
  · exact .inl hnothing
  · exact .inr hevicted

/-- Two chunks that their owner can spare. -/
def spares : List (Move symbolic) :=
  [.opens, .runs (.putChunk 7 9 [1, 2, 3]), .runs (.putChunk 7 10 [4, 5]),
    .runs (.markEvictable 7 [9, 10] 100)]

theorem evict_all_or_nothing_spares :
    ((start.run spares).vault.evictMarked 7 4 200).2 = 5 ∧
      ∃ taken, Evicted (start.run spares).vault 7 4 200
        ((start.run spares).vault.evictMarked 7 4 200).1 5 taken := by
  have hwhole : (start : VaultWorld symbolic).Always MarksWhole spares :=
    ⟨fun _ _ h => (nomatch h), fun _ _ h => (nomatch h), fun _ _ h => (nomatch h), fun _ _ h =>
      (nomatch h), trivial⟩
  have hfreed : ((start.run spares).vault.evictMarked 7 4 200).2 = 5 := by decide +kernel
  have hevicted := evict_all_or_nothing hwhole (by decide +kernel) 7 200 (by decide : 0 < 4)
  dsimp only at hevicted
  rw [hfreed] at hevicted
  exact ⟨hfreed, hevicted.resolve_left fun hnothing => nomatch hnothing.1⟩

/-- A chunk that is stored when an old order row of it was left behind. -/
def robbed : List (Move symbolic) := unordered ++ [.runs (.putChunk 7 9 [1, 2, 3])]

/-- An order row that was left behind costs its owner a chunk it did not mark. If it has marked the
chunk again, the chunk counts twice: it goes, and too little is free. -/
theorem unmarked_evicted :
    ((start.run robbed).running = true ∧ (start.run robbed).vault.standing 7 101 = [] ∧
        (start.run robbed).vault.chunks[chunkKey 7 9]? = some 3 ∧
        ((start.run robbed).vault.evictMarked 7 3 101).2 = 3 ∧
        ((start.run robbed).vault.evictMarked 7 3 101).1.chunks[chunkKey 7 9]? = none) ∧
      (let v := ((start.run robbed).step (.runs (.markEvictable 7 [9] 200))).vault
      (v.evictMarked 7 6 201).2 = 3 ∧ (v.evictMarked 7 6 201).1.chunks[chunkKey 7 9]? = none) := by
  decide +kernel

end VaultWorld

end Itsanas
