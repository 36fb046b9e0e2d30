/-
# How many copies there are elsewhere

`coverage` of `itsanas-store/src/index.rs`, and `Coverage` of `holders.rs`: how much of the account
would be there without this machine. A machine counts if it was heard of in the last `confirmedFor`
seconds and is not draining, and what it is recorded as holding then counts whatever the age of the
record. The figure to show is the least over all chunks: it is how many machines can be lost before
some chunk is gone (`Index.coverage_tolerates`).

What is short is found by another rule, of `under_replicated`: a record counts for `liveFor`
seconds, whenever its machine was heard of. The two agree in the direction that matters, as long as
clocks do not go back: where nothing is short, the figure is met (`Index.repaired_is_covered`).
-/
import Itsanas.Sanctions
import Itsanas.Symbolic

namespace Itsanas

variable {K : Crypto}

/-- Whether this account's data could be put back together without this machine. -/
structure Coverage where
  completeElsewhere : ℕ
  claimedElsewhere : ℕ
  staleRecords : ℕ
  liveChunks : ℕ
  onlyHere : ℕ
  largestShare : ℕ
  distinctHolders : ℕ

def Coverage.meets (c : Coverage) (target : ℕ) :
    Bool := c.liveChunks = 0 || target ≤ c.completeElsewhere

namespace Ledger

/-- A machine that was heard of lately and is not draining. -/
def alive (l : Ledger) (now : ℕ) (device : DeviceId) : Bool :=
  now - confirmedFor ≤ (l.deviceSeen[device]?).getD 0 && !l.drainingAt device now

/-- The machines that are recorded for `chunk` and count. -/
def confirmed (l : Ledger) (now : ℕ) (chunk : ChunkId) : List DeviceId :=
  ((l.holdersOf chunk).map Prod.fst).filter (l.alive now)

end Ledger

/-- What has been counted so far. -/
structure CoverageTally where
  liveChunks : ℕ
  onlyHere : ℕ
  staleRecords : ℕ
  fewest : Option ℕ
  fewestClaimed : Option ℕ
  perDevice : Table DeviceId ℕ

namespace CoverageTally

/-- Count one live chunk. -/
def count (l : Ledger) (now : ℕ) (t : CoverageTally) (chunk : ChunkId) : CoverageTally :=
  let claimed := (l.holdersOf chunk).length
  let confirmed := l.confirmed now chunk
  { liveChunks := t.liveChunks + 1
    onlyHere := if confirmed.length = 0 then t.onlyHere + 1 else t.onlyHere
    staleRecords := t.staleRecords + (claimed - confirmed.length)
    fewest := some (t.fewest.elim confirmed.length (min · confirmed.length))
    fewestClaimed := some (t.fewestClaimed.elim claimed (min · claimed))
    perDevice := confirmed.foldl (fun m d => m.insert d ((m[d]?).getD 0 + 1)) t.perDevice }

end CoverageTally

namespace Index

/-- The chunks some file lists. -/
def live (ix : Index K) :
    List ChunkId := (ix.tree.chunkRefs.toList.filter fun r => r.2 ≠ 0).map Prod.fst

/-- How many complete copies of this node's data exist on other machines. -/
def coverage (ix : Index K) (now : ℕ) : Coverage :=
  let t := ix.live.foldl (CoverageTally.count ix.ledger now) ⟨0, 0, 0, none, none, ∅⟩
  { completeElsewhere := t.fewest.getD 0
    claimedElsewhere := t.fewestClaimed.getD 0
    staleRecords := t.staleRecords
    liveChunks := t.liveChunks
    onlyHere := t.onlyHere
    largestShare := (t.perDevice.toList.map Prod.snd).foldl max 0
    distinctHolders := t.perDevice.size }

end Index

/-! ### The least of all chunks -/

namespace CoverageTally

/-- The fewest so far is the least of what was counted. -/
theorem fewest_foldl (l : Ledger) (now : ℕ) : ∀ (chunks : List ChunkId) (t : CoverageTally),
    (chunks.foldl (count l now) t).fewest =
      (t.fewest.toList ++ chunks.map fun c => (l.confirmed now c).length).min?
  | [], t => by cases hfew : t.fewest <;> simp [hfew]
  | c :: chunks, t => by
    rw [List.foldl_cons, fewest_foldl l now chunks]
    simp only [count]
    cases t.fewest <;> rfl

theorem liveChunks_foldl (l : Ledger) (now : ℕ) : ∀ (chunks : List ChunkId) (t : CoverageTally),
    (chunks.foldl (count l now) t).liveChunks = t.liveChunks + chunks.length
  | [], _ => rfl
  | c :: chunks, t => by
    rw [List.foldl_cons, liveChunks_foldl l now chunks, List.length_cons]
    show t.liveChunks + 1 + chunks.length = _
    omega

end CoverageTally

variable {ix : Index K}

namespace Index

/-- With something live, the figure is the least number of machines that count for a chunk. -/
theorem coverage_least (now : ℕ) (hlive : ix.live ≠ []) :
    (∀ c ∈ ix.live, (ix.coverage now).completeElsewhere ≤ (ix.ledger.confirmed now c).length) ∧
      ∃ c ∈ ix.live, (ix.coverage now).completeElsewhere = (ix.ledger.confirmed now c).length := by
  unfold coverage
  dsimp only
  rw [CoverageTally.fewest_foldl, Option.toList_none, List.nil_append]
  cases hmin : (ix.live.map fun c => (ix.ledger.confirmed now c).length).min? with
  | none => exact absurd (List.map_eq_nil_iff.mp (List.min?_eq_none_iff.mp hmin)) hlive
  | some n =>
    obtain ⟨hmem, hle⟩ := List.min?_eq_some_iff.mp hmin
    obtain ⟨c, hc, hlen⟩ := List.mem_map.mp hmem
    exact ⟨fun c hc => hle _ (List.mem_map_of_mem hc), c, hc, hlen.symm⟩

theorem coverage_liveChunks (ix : Index K) (now : ℕ) : (ix.coverage now).liveChunks = ix.live.length :=
  (CoverageTally.liveChunks_foldl _ _ _ _).trans (Nat.zero_add _)

end Index

theorem Ledger.nodup_confirmed (l : Ledger) (now : ℕ) (chunk : ChunkId) :
    (l.confirmed now chunk).Nodup := by
  refine List.Nodup.filter _ ?_
  rw [holdersOf, List.map_map, List.Nodup, List.pairwise_map]
  refine (Table.toList_pairwise l.holders |>.filter _).imp_of_mem fun {r s} hr hs hne heq => hne ?_
  have h1 : (ofLex r.1).1 = chunk := by simpa using (List.mem_filter.mp hr).2
  have h2 : (ofLex s.1).1 = chunk := by simpa using (List.mem_filter.mp hs).2
  exact congrArg toLex (Prod.ext (h1.trans h2.symm) heq)

/-- **The figure is how many machines can be lost.** With something live, `completeElsewhere` is the
size of the smallest set of other machines without which some chunk is on none that counts: with
fewer of them lost every chunk is still on one, and so many can be lost that one is not. -/
theorem Index.coverage_tolerates (ix : Index K) (now : ℕ) (hlive : (ix.coverage now).liveChunks ≠ 0) :
    IsLeast (Finset.card ''
      {gone : Finset DeviceId | ∃ c ∈ ix.live, ∀ d ∈ ix.ledger.confirmed now c, d ∈ gone})
      (ix.coverage now).completeElsewhere := by
  rw [coverage_liveChunks, ne_eq, List.length_eq_zero_iff] at hlive
  obtain ⟨hle, c, hc, heq⟩ := coverage_least now hlive
  refine ⟨⟨(ix.ledger.confirmed now c).toFinset, ⟨c, hc, fun d hd => List.mem_toFinset.mpr hd⟩, ?_⟩,
    ?_⟩
  · rw [heq, List.toFinset_card_of_nodup (ix.ledger.nodup_confirmed now c)]
  · rintro _ ⟨gone, ⟨b, hb, hgone⟩, rfl⟩
    calc (ix.coverage now).completeElsewhere
        ≤ (ix.ledger.confirmed now b).length := hle b hb
      _ = (ix.ledger.confirmed now b).toFinset.card :=
          (List.toFinset_card_of_nodup (ix.ledger.nodup_confirmed now b)).symm
      _ ≤ gone.card := Finset.card_le_card fun d hd => hgone d (List.mem_toFinset.mp hd)

namespace Index

/-- A chunk that two machines acknowledged. -/
def onTwo : List LedgerOp :=
  [.files { FileTables.new with chunkRefs := Std.ExtTreeMap.insert ∅ 5 1 }, .recordStored [5] 2 10,
    .recordHolders [5, 6] 3 20]

def heldByTwo : Index symbolic := ledgerRun .new onTwo

theorem coverage_tolerates_heldByTwo : IsLeast (Finset.card '' {gone : Finset DeviceId |
    ∃ c ∈ heldByTwo.live, ∀ d ∈ heldByTwo.ledger.confirmed 30 c, d ∈ gone}) 2 := by
  have h := coverage_tolerates heldByTwo 30 (by decide +kernel)
  rwa [show (heldByTwo.coverage 30).completeElsewhere = 2 by decide +kernel] at h

end Index

/-! ### What is not short is covered -/

namespace Ledger

/-- No record is younger than what was last heard of its machine, and that was not after `clock`. -/
structure Stamped (clock : ℕ) (l : Ledger) : Prop where
  stamps : ∀ (chunk : ChunkId) (device : DeviceId) (stamp : ℕ), l.holders[key chunk device]? =
    some stamp →
    stamp ≤ (l.deviceSeen[device]?).getD 0
  seen : ∀ device : DeviceId, (l.deviceSeen[device]?).getD 0 ≤ clock

section
variable {clock now : ℕ} {l l' : Ledger} {tag : ChunkId → AuditTag}

theorem Stamped.later (h : Stamped clock l) (hle : clock ≤ now) : Stamped now l :=
  ⟨h.stamps, fun device => (h.seen device).trans hle⟩

theorem Stamped.quieter (h : Stamped clock l) (hq : l.Quieter l') : Stamped clock l' := by
  refine ⟨fun chunk device stamp hs => ?_, fun device => ?_⟩
  · rw [hq.seen]
    exact h.stamps chunk device stamp (hq.fewer _ _ hs)
  · rw [hq.seen]
    exact h.seen device

/-- A machine is heard of. -/
theorem Stamped.heard (h : Stamped clock l) (hle : clock ≤ now) (device : DeviceId)
    (hholders : l'.holders = l.holders) (hseen : l'.deviceSeen = l.deviceSeen.insert device now) :
    Stamped now l' := by
  have hrises : ∀ d : DeviceId, (l.deviceSeen[d]?).getD 0 ≤ (l'.deviceSeen[d]?).getD 0 ∧
      (l'.deviceSeen[d]?).getD 0 ≤ now := by
    intro d
    rw [hseen, Table.getElem?_insert']
    split_ifs with hd
    · exact ⟨(h.seen d).trans hle, le_rfl⟩
    · exact ⟨le_rfl, (h.seen d).trans hle⟩
  refine ⟨fun chunk d stamp hs => ?_, fun d => (hrises d).2⟩
  rw [hholders] at hs
  exact (h.stamps chunk d stamp hs).trans (hrises d).1

theorem Stamped.putRecord (h : Stamped now l) (device : DeviceId)
    (hheard : (l.deviceSeen[device]?).getD 0 = now)
    (chunk : ChunkId) : Stamped now (l.putRecord tag device now chunk) := by
  refine ⟨fun c d stamp hs => ?_, h.seen⟩
  simp only [Ledger.putRecord, Table.getElem?_insert', key_inj] at hs ⊢
  split_ifs at hs with hk
  · cases hs
    rw [← hk.2, hheard]
  · exact h.stamps c d stamp hs

theorem Stamped.recordDue (h : Stamped clock l) (hle : clock ≤ now) (due : List ChunkId)
    (device : DeviceId) :
    Stamped now (l.recordDue tag due device now) := by
  unfold Ledger.recordDue
  split_ifs
  · exact h.later hle
  · have hheard : Stamped now { l with deviceSeen := l.deviceSeen.insert device now } :=
      h.heard hle device rfl rfl
    refine (List.foldlRecOn (motive := fun l' : Ledger => Stamped now l' ∧
      (l'.deviceSeen[device]?).getD 0 = now)
      due _ ⟨hheard, by simp⟩ fun l' hl' chunk _ => ?_).1
    exact ⟨hl'.1.putRecord device hl'.2 chunk, hl'.2⟩

end

end Ledger

namespace Index

/-- Every operation keeps the stamps in order, if the clock does not go back. -/
theorem stamped_apply {clock : ℕ} (h : ix.ledger.Stamped clock) (op : LedgerOp)
    (hclock : ∀ now ∈ op.time, clock ≤ now) : (op.apply ix).ledger.Stamped (op.time.getD clock) := by
  cases moves ix op with
  | quieter _ hq =>
    refine (h.quieter hq).later ?_
    cases htime : op.time with
    | none => exact le_rfl
    | some now => exact hclock now htime
  | records _ htime hq happly =>
    rw [happly, htime]
    exact (h.quieter hq).recordDue (hclock _ htime) _ _
  | hears _ htime happly =>
    rw [happly, htime]
    exact h.heard (hclock _ htime) _ rfl rfl
  | @audit device passed now =>
    refine h.heard (hclock now rfl) device ?_ ?_
    · exact (apply_ite (fun ix : Index K => ix.ledger.holders) _ _ _).trans (ite_self _)
    · exact (apply_ite (fun ix : Index K => ix.ledger.deviceSeen) _ _ _).trans (ite_self _)

theorem stamped_ledgerRun :
    ∀ {ops : List LedgerOp} {ix : Index K} {clock now : ℕ}, ix.ledger.Stamped clock →
    (clock :: (ops.filterMap LedgerOp.time ++ [now])).Pairwise (· ≤ ·) →
      (ledgerRun ix ops).ledger.Stamped now
  | [], ix, clock, now, h, hclock => by
    simp only [List.filterMap_nil, List.nil_append, List.pairwise_cons, List.mem_singleton,
      forall_eq] at hclock
    exact h.later hclock.1
  | op :: ops, ix, clock, now, h, hclock => by
    show (ledgerRun (op.apply ix) ops).ledger.Stamped now
    refine stamped_ledgerRun (stamped_apply h op fun t ht => ?_) ?_
    · exact (List.pairwise_cons.mp hclock).1 t (by simp [Option.mem_def.mp ht])
    · cases htime : op.time with
      | none => simpa [List.filterMap_cons, htime] using hclock
      | some t =>
        rw [List.filterMap_cons, htime] at hclock
        exact (List.pairwise_cons.mp hclock).2

/-- With stamps in order, what counts as a copy is on a machine that counts. -/
theorem copies_le_confirmed {l : Ledger} {now : ℕ} (h : l.Stamped now) (c : ChunkId) :
    (l.copies c now).length ≤ (l.confirmed now c).length := by
  unfold Ledger.copies Ledger.confirmed
  rw [List.filter_map, List.length_map, List.length_map, ← List.countP_eq_length_filter,
    ← List.countP_eq_length_filter]
  refine List.countP_mono_left fun r hr hcopy => ?_
  -- a machine with a young record was heard of when it was made, or later
  obtain ⟨row, hrow, rfl⟩ := List.mem_map.mp hr
  obtain ⟨hmem, hchunk⟩ := List.mem_filter.mp hrow
  have hstamp := h.stamps (ofLex row.1).1 (ofLex row.1).2 row.2 (Table.mem_toList.mp hmem)
  simp only [decide_eq_true_eq] at hcopy
  have hhorizon : now - Ledger.confirmedFor ≤ now - Ledger.liveFor :=
    Nat.sub_le_sub_left (by decide) now
  have hheard : now - Ledger.confirmedFor ≤ (l.deviceSeen[(ofLex row.1).2]?).getD 0 :=
    hhorizon.trans (hcopy.2.trans hstamp)
  rw [Function.comp_apply, Ledger.alive, Bool.and_eq_true]
  exact ⟨decide_eq_true hheard, by simpa using hcopy.1⟩

theorem le_copies_of_not_short {target now : ℕ} (hshort : ix.underReplicated (target + 1) now = [])
    {c : ChunkId} (hc : c ∈ ix.live) : target ≤ (ix.ledger.copies c now).length := by
  obtain ⟨r, hr, rfl⟩ := List.mem_map.mp hc
  obtain ⟨hrow, hrefs⟩ := List.mem_filter.mp hr
  have hrefs : r.2 ≠ 0 := by simpa using hrefs
  rw [underReplicated, ← List.length_eq_zero_iff, List.length_insertionSort,
    List.length_eq_zero_iff] at hshort
  have hnone := List.filterMap_eq_nil_iff.mp hshort r hrow
  simp only [hrefs, if_false] at hnone
  split_ifs at hnone with hfew
  omega

theorem new_stamped : (.new : Index K).ledger.Stamped 0 where
  stamps chunk device stamp hs := absurd (hs.symm.trans Std.ExtTreeMap.getElem?_empty) (by simp)
  seen device := (congrArg (fun o : Option ℕ => o.getD 0) Std.ExtTreeMap.getElem?_empty).le

/-- **Where nothing is short, the figure is met.** Whatever is done to an index from a new one on,
with a clock that does not go back: if at the end no chunk is held by fewer than `target + 1`
machines, this one included, then there are `target` complete copies elsewhere. -/
theorem repaired_is_covered (ops : List LedgerOp) (now : ℕ)
    (hclock : (ops.filterMap LedgerOp.time ++ [now]).Pairwise (· ≤ ·)) (target : ℕ)
    (hshort : (ledgerRun (K := K) .new ops).underReplicated (target + 1) now = []) :
    ((ledgerRun (K := K) .new ops).coverage now).meets target = true := by
  have hstamped := stamped_ledgerRun (K := K) new_stamped
    (List.pairwise_cons.mpr ⟨fun _ _ => Nat.zero_le _, hclock⟩)
  rw [Coverage.meets, coverage_liveChunks, Bool.or_eq_true, decide_eq_true_eq, decide_eq_true_eq]
  refine or_iff_not_imp_left.mpr fun hlive => ?_
  obtain ⟨-, c, hc, heq⟩ := coverage_least now (fun h => hlive (List.length_eq_zero_iff.mpr h))
  calc target ≤ _ := le_copies_of_not_short hshort hc
    _ ≤ _ := copies_le_confirmed hstamped c
    _ = _ := heq.symm

theorem repaired_is_covered_heldByTwo : (heldByTwo.coverage 30).meets 2 = true :=
  repaired_is_covered onTwo 30 (by decide) 2 (by decide +kernel)

end Index

end Itsanas
