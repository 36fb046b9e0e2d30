/-
# Planning a repair

`repair.rs` of `itsanas-placement`: which chunks to send where, and which will still be short of
copies afterwards. A chunk goes to the targets that placement names for it, that can be reached
now and that do not hold it yet.

A chunk is short if fewer members of the swarm than the floor will hold it: those that hold it
now and those it is sent to. The plan takes the larger of two of these counts, the holders and
the targets that hold it or can be reached, where it is their union that counts: a holder that is
no target adds to the targets that will hold it. So the plan never misses a chunk that is short,
and calls some short that are not.
-/
import Itsanas.NodeSet

namespace Itsanas.Repair

/-- Where chunks are believed to live. -/
structure Census where
  rows : Table ChunkId (Finset DeviceId)

namespace Census

def new : Census := ⟨∅⟩

/-- A device reports holding a chunk. -/
def observe (census : Census) (chunk : ChunkId) (device : DeviceId) : Census :=
  ⟨census.rows.insert chunk (insert device ((census.rows[chunk]?).getD ∅))⟩

/-- A chunk exists, held or not. -/
def note (census : Census) (chunk : ChunkId) : Census :=
  ⟨census.rows.insert chunk ((census.rows[chunk]?).getD ∅)⟩

def holders (census : Census) (chunk : ChunkId) : Finset DeviceId := (census.rows[chunk]?).getD ∅

def chunks (census : Census) : List ChunkId := census.rows.toList.map Prod.fst

end Census

/-- One chunk that should be sent to one node. -/
structure Push where
  chunk : ChunkId
  to' : DeviceId
  deriving DecidableEq

/-- A chunk that cannot reach its floor. -/
structure AtRisk where
  chunk : ChunkId
  heldBy : ℕ
  floor : ℕ
  deriving DecidableEq

structure RepairPlan where
  pushes : List Push
  atRisk : List AtRisk
  deriving DecidableEq

section
variable (hash : SlotHash) (swarm : NodeSet) (owner : UserId) (census : Census) (floor : ℕ)
  (available : Finset DeviceId)

/-- The targets a chunk is sent to. A target that cannot be reached is asleep, not gone. -/
def pushesOf (chunk : ChunkId) : List Push :=
  ((swarm.replicasFor hash owner chunk floor).filter fun target =>
    target ∉ census.holders chunk ∧ target ∈ available).map fun target => ⟨chunk, target⟩

/-- How many copies the plan counts on. -/
def eventual (chunk : ChunkId) : ℕ :=
  let holders := census.holders chunk
  let reachableTargets := (swarm.replicasFor hash owner chunk floor).countP fun target =>
    target ∈ available ∨ target ∈ holders
  max (holders.filter fun holder => swarm.nodes.any fun node => node.device = holder).card
    reachableTargets

def riskOf (chunk : ChunkId) : Option AtRisk :=
  if eventual hash swarm owner census floor available chunk < floor then
    some ⟨chunk, (census.holders chunk).card, floor⟩
  else none

/-- What to send where, and what will still be short afterwards. -/
def plan : RepairPlan where
  pushes := (census.chunks.flatMap (pushesOf hash swarm owner census floor available)).insertionSort
    fun a b => toLex (a.chunk, a.to') ≤ toLex (b.chunk, b.to')
  atRisk := census.chunks.filterMap (riskOf hash swarm owner census floor available)

/-! ### Pushes -/

variable {chunk : ChunkId}

theorem mem_pushesOf {push : Push} :
    push ∈ pushesOf hash swarm owner census floor available chunk ↔ push.chunk = chunk ∧
      push.to' ∈ swarm.replicasFor hash owner chunk floor ∧ push.to' ∈ available ∧
      push.to' ∉ census.holders chunk := by
  rw [pushesOf, List.mem_map]
  constructor
  · rintro ⟨target, htarget, rfl⟩
    obtain ⟨hmem, hboth⟩ := List.mem_filter.mp htarget
    obtain ⟨hnot, havailable⟩ := of_decide_eq_true hboth
    exact ⟨rfl, hmem, havailable, hnot⟩
  · rintro ⟨rfl, hmem, havailable, hnot⟩
    exact ⟨push.to', List.mem_filter.mpr ⟨hmem, decide_eq_true ⟨hnot, havailable⟩⟩, rfl⟩

/-- **A chunk is sent to the targets that can be reached and do not hold it**, and to nobody
else. -/
theorem mem_pushes {push : Push} :
    push ∈ (plan hash swarm owner census floor available).pushes ↔ push.chunk ∈ census.chunks ∧
      push.to' ∈ swarm.replicasFor hash owner push.chunk floor ∧ push.to' ∈ available ∧
      push.to' ∉ census.holders push.chunk := by
  rw [plan, List.mem_insertionSort, List.mem_flatMap]
  constructor
  · rintro ⟨chunk, hchunk, hpush⟩
    obtain ⟨rfl, hrest⟩ := (mem_pushesOf hash swarm owner census floor available).mp hpush
    exact ⟨hchunk, hrest⟩
  · rintro ⟨hchunk, hrest⟩
    exact ⟨push.chunk, hchunk, (mem_pushesOf hash swarm owner census floor available).mpr ⟨rfl, hrest⟩⟩

theorem nodup_pushes : (plan hash swarm owner census floor available).pushes.Nodup := by
  refine (List.perm_insertionSort _ _).nodup_iff.mpr (List.nodup_flatMap.mpr ⟨fun chunk _ => ?_, ?_⟩)
  · have hnodup := (swarm.replicasFor_spec hash owner chunk floor).1
    exact (hnodup.filter _).map fun a b h => (Push.mk.inj h).2
  · have hchunks : census.chunks.Pairwise (· ≠ ·) := List.pairwise_map.mpr (Table.toList_pairwise _)
    refine hchunks.imp fun {a b} hne push ha hb => hne ?_
    rw [← ((mem_pushesOf hash swarm owner census floor available).mp ha).1,
      ← ((mem_pushesOf hash swarm owner census floor available).mp hb).1]

/-! ### Survivors -/

def memberDevices : Finset DeviceId := (swarm.nodes.map StorageNode.device).toFinset

/-- The members of the swarm that hold a chunk once every push of a plan is delivered. -/
def survivors (pushes : List Push) (chunk : ChunkId) : Finset DeviceId :=
  (memberDevices swarm).filter fun device => device ∈ census.holders chunk ∨ ⟨chunk, device⟩ ∈ pushes

/-- The targets of a chunk that hold it or can be reached. -/
def reachable (chunk : ChunkId) : Finset DeviceId :=
  (swarm.replicasFor hash owner chunk floor).toFinset.filter fun device =>
    device ∈ available ∨ device ∈ census.holders chunk

/-- The members that hold a chunk. -/
def holdingMembers (chunk : ChunkId) : Finset DeviceId := census.holders chunk ∩ memberDevices swarm

/-- The members that hold a chunk and are no targets of it. -/
def strayHolders (chunk : ChunkId) : Finset DeviceId :=
  holdingMembers swarm census chunk \ (swarm.replicasFor hash owner chunk floor).toFinset

/-- The targets of a chunk that do not hold it. -/
def lackingTargets (chunk : ChunkId) : Finset DeviceId :=
  (swarm.replicasFor hash owner chunk floor).toFinset \ census.holders chunk

/-- Those of them that cannot be reached. -/
def asleepTargets (chunk : ChunkId) : Finset DeviceId :=
  lackingTargets hash swarm owner census floor chunk \ available

theorem replicasFor_subset (chunk : ChunkId) :
    (swarm.replicasFor hash owner chunk floor).toFinset ⊆ memberDevices swarm := by
  intro device hdevice
  obtain ⟨-, -, own, others, hsplit, hown, hothers, -⟩ := swarm.replicasFor_spec hash owner chunk floor
  rw [List.mem_toFinset, hsplit, List.mem_append] at hdevice
  rw [memberDevices, List.mem_toFinset, List.mem_map]
  rcases hdevice with h | h
  · obtain ⟨node, hnode, hd, -⟩ := hown device h
    exact ⟨node, hnode, hd⟩
  · obtain ⟨node, hnode, hd, -⟩ := hothers device h
    exact ⟨node, hnode, hd⟩

theorem eventual_eq (chunk : ChunkId) :
    eventual hash swarm owner census floor available chunk =
      max (holdingMembers swarm census chunk).card
        (reachable hash swarm owner census floor available chunk).card := by
  have hholders : ((census.holders chunk).filter fun holder =>
      swarm.nodes.any fun node => node.device = holder) = holdingMembers swarm census chunk := by
    ext device
    simp [holdingMembers, memberDevices]
  have hnodup := (swarm.replicasFor_spec hash owner chunk floor).1
  have htargets : ((swarm.replicasFor hash owner chunk floor).countP fun target =>
      target ∈ available ∨ target ∈ census.holders chunk) =
      (reachable hash swarm owner census floor available chunk).card := by
    rw [List.countP_eq_length_filter, ← List.toFinset_card_of_nodup (hnodup.filter _),
      List.toFinset_filter, reachable]
    simp
  unfold eventual
  dsimp only
  rw [hholders, htargets]

/-- **Who holds a chunk afterwards**: the reachable targets, and the holders that are no targets. -/
theorem card_survivors (hchunk : chunk ∈ census.chunks) :
    (survivors swarm census (plan hash swarm owner census floor available).pushes chunk).card =
      (reachable hash swarm owner census floor available chunk).card +
        (strayHolders hash swarm owner census floor chunk).card := by
  have hsub := replicasFor_subset hash swarm owner floor chunk
  have hsplit : survivors swarm census (plan hash swarm owner census floor available).pushes chunk =
      reachable hash swarm owner census floor available chunk ∪
        strayHolders hash swarm owner census floor chunk := by
    ext device
    have hmember : device ∈ swarm.replicasFor hash owner chunk floor → device ∈ memberDevices swarm :=
      fun h => hsub (List.mem_toFinset.mpr h)
    simp only [survivors, reachable, strayHolders, holdingMembers, mem_pushes, hchunk, true_and,
      Finset.mem_filter, Finset.mem_union, Finset.mem_sdiff, Finset.mem_inter, List.mem_toFinset]
    tauto
  have hdisjoint : Disjoint (reachable hash swarm owner census floor available chunk)
      (strayHolders hash swarm owner census floor chunk) := by
    refine Finset.disjoint_left.mpr fun device hreach hstray => ?_
    exact (Finset.mem_sdiff.mp hstray).2 (Finset.mem_filter.mp hreach).1
  rw [hsplit, Finset.card_union_of_disjoint hdisjoint]

theorem mem_atRisk :
    (∃ risk ∈ (plan hash swarm owner census floor available).atRisk, risk.chunk = chunk) ↔
      chunk ∈ census.chunks ∧ eventual hash swarm owner census floor available chunk < floor := by
  have hrisk : ∀ other risk, riskOf hash swarm owner census floor available other = some risk ↔
      eventual hash swarm owner census floor available other < floor ∧
        risk = ⟨other, (census.holders other).card, floor⟩ := by
    intro other risk
    rw [riskOf]
    split_ifs with h
    · exact ⟨fun he => ⟨h, (Option.some.inj he).symm⟩, fun he => congrArg some he.2.symm⟩
    · exact ⟨fun he => (nomatch he), fun he => absurd he.1 h⟩
  constructor
  · rintro ⟨risk, hmem, rfl⟩
    obtain ⟨chunk, hchunk, hsome⟩ := List.mem_filterMap.mp hmem
    obtain ⟨hlt, rfl⟩ := (hrisk chunk risk).mp hsome
    exact ⟨hchunk, hlt⟩
  · rintro ⟨hchunk, hlt⟩
    exact ⟨_, List.mem_filterMap.mpr ⟨chunk, hchunk, (hrisk chunk _).mpr ⟨hlt, rfl⟩⟩, rfl⟩

/-- The counts the plan makes, in the sets it is made from. -/
theorem card_parts (chunk : ChunkId) :
    let targets := (swarm.replicasFor hash owner chunk floor).toFinset
    let lacking := (lackingTargets hash swarm owner census floor chunk).card
    let asleep := (asleepTargets hash swarm owner census floor available chunk).card
    (reachable hash swarm owner census floor available chunk).card + asleep = targets.card ∧
      (holdingMembers swarm census chunk).card + lacking =
        targets.card + (strayHolders hash swarm owner census floor chunk).card ∧
      asleep ≤ lacking := by
  intro targets lacking asleep
  have hsub : targets ⊆ memberDevices swarm := replicasFor_subset hash swarm owner floor chunk
  refine ⟨?_, ?_, Finset.card_le_card Finset.sdiff_subset⟩
  · have hasleep : asleepTargets hash swarm owner census floor available chunk =
        targets.filter fun device => ¬(device ∈ available ∨ device ∈ census.holders chunk) := by
      ext device
      simp only [asleepTargets, lackingTargets, Finset.mem_sdiff, Finset.mem_filter, targets]
      tauto
    simp only [asleep, hasleep]
    exact Finset.card_filter_add_card_filter_not _
  · have hholding : holdingMembers swarm census chunk ∩ targets = targets ∩ census.holders chunk := by
      ext device
      have hmember := @hsub device
      simp only [holdingMembers, Finset.mem_inter]
      tauto
    have hsplit := Finset.card_inter_add_card_sdiff (holdingMembers swarm census chunk) targets
    have htargets := Finset.card_inter_add_card_sdiff targets (census.holders chunk)
    rw [hholding] at hsplit
    change (holdingMembers swarm census chunk).card + (targets \ census.holders chunk).card =
      targets.card + (holdingMembers swarm census chunk \ targets).card
    omega

/-- Where a member that is no target holds the chunk, there are as many targets as the floor
asks. -/
theorem card_targets (hstray : 0 < (strayHolders hash swarm owner census floor chunk).card) :
    (swarm.replicasFor hash owner chunk floor).toFinset.card = floor := by
  obtain ⟨hnodup, hlength, -⟩ := swarm.replicasFor_spec hash owner chunk floor
  obtain ⟨device, hdevice⟩ := Finset.card_pos.mp hstray
  obtain ⟨hholds, htarget⟩ := Finset.mem_sdiff.mp hdevice
  have hfewer : (swarm.replicasFor hash owner chunk floor).toFinset.card <
      (memberDevices swarm).card :=
    Finset.card_lt_card
      ((Finset.ssubset_iff_of_subset (replicasFor_subset hash swarm owner floor chunk)).mpr
      ⟨device, (Finset.mem_inter.mp hholds).2, htarget⟩)
  have hmembers : (memberDevices swarm).card ≤ swarm.nodes.length := by
    rw [← List.length_map (f := StorageNode.device)]
    exact List.toFinset_card_le _
  rw [List.toFinset_card_of_nodup hnodup, hlength] at hfewer ⊢
  omega

/-- **What a repair plan says of risk.** Its pushes are right for every swarm and census. A chunk
that fewer than `floor` members will hold is always at risk in the plan; and only such a chunk is,
unless some of its targets lack it and cannot be reached, and the members that hold it without being
targets make up for these, but not for all the targets that lack it. -/
theorem plan_risk :
    (∀ push, push ∈ (plan hash swarm owner census floor available).pushes ↔
      push.chunk ∈ census.chunks ∧
      push.to' ∈ swarm.replicasFor hash owner push.chunk floor ∧ push.to' ∈ available ∧
      push.to' ∉ census.holders push.chunk) ∧
    (plan hash swarm owner census floor available).pushes.Nodup ∧
    ∀ chunk ∈ census.chunks,
      let listed := ∃ risk ∈ (plan hash swarm owner census floor available).atRisk, risk.chunk = chunk
      let short :=
        (survivors swarm census (plan hash swarm owner census floor available).pushes chunk).card
        < floor
      let stray := (strayHolders hash swarm owner census floor chunk).card
      let asleep := (asleepTargets hash swarm owner census floor available chunk).card
      (short → listed) ∧
      ((listed ↔ short) ↔
        asleep = 0 ∨ stray < asleep ∨ (lackingTargets hash swarm owner census floor chunk).card ≤
            stray) := by
  refine ⟨fun push => mem_pushes hash swarm owner census floor available,
    nodup_pushes hash swarm owner census floor available, fun chunk hchunk => ?_⟩
  obtain ⟨hreach, hholding, hasleep⟩ := card_parts hash swarm owner census floor available chunk
  dsimp only
  rw [mem_atRisk, eventual_eq, card_survivors hash swarm owner census floor available hchunk]
  simp only [hchunk, true_and]
  -- without stray holders the reachable targets are all that counts; with them, the targets number
  -- `floor`
  rcases Nat.eq_zero_or_pos (strayHolders hash swarm owner census floor chunk).card with hnone | hsome
  · omega
  · have hfloor := card_targets hash swarm owner census floor hsome
    omega

end

/-- **A chunk with enough copies on their way is called at risk.** Two members hold it that are no
targets, and the one target that can be reached makes three. -/
theorem plan_false_alarm :
    (NodeSet.new [⟨1, 11, 1⟩, ⟨2, 12, 1⟩, ⟨3, 13, 1⟩, ⟨4, 14, 1⟩, ⟨5, 15, 1⟩]).map (fun swarm =>
      let census := (Census.new.observe 7 1).observe 7 2
      let result := plan (fun device _ _ _ => device) swarm 9 census 3 {1, 2, 3}
      (result.atRisk, (survivors swarm census result.pushes 7).card)) =
      .ok ([⟨7, 2, 3⟩], 3) := by
  decide +kernel

end Itsanas.Repair
