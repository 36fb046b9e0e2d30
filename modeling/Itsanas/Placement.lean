/-
# Where copies may go, and which

`roster.rs` of `itsanas-placement`, and of `placement.rs` and `placed.rs` of `itsanas-net` what
lets a full host drop a copy. A round freezes what a device knows of the hosts. With a host
whose share for the account is full, the device looks at the chunks the host is recorded for,
and for those where this host's copy is the one to drop it tells the host so and forgets the
record.

The devices of an account do this on their own, each from its own measurements. Each leaves a
margin: as many households beyond the goal as there are devices. It is meant for one copy each,
and a device drops one copy after the other, down to its margin, without seeing what the others
drop: two devices that rank the hosts differently can drop every copy (`Fleet.all_released`).
The goal is kept where nobody drops a copy while others have dropped some it still counts
(`Fleet.goal_kept`).
-/
import Itsanas.Release
import Itsanas.Service
import Itsanas.Symbolic
import Itsanas.Target

namespace Itsanas

/-! ### The roster -/

/-- One host of a round. -/
structure RosterHost where
  device : DeviceId
  account : Account
  uptime : Option Uptime
  eligible : Bool
  proven : Bool
  recent : Bool
  network : Option Network

/-- The hosts of a round, with their slots. -/
structure Roster where
  hosts : Table DeviceId (RosterHost × ℕ)
  keyed : ∀ device (r : RosterHost × ℕ), hosts[device]? = some r → r.1.device = device

/-- The hash of a host's slot for a chunk. -/
abbrev SlotHash := DeviceId → ℕ → UserId → ChunkId → Id

variable {device : DeviceId}

namespace Roster

/-- One slot, or the quarter of the availability a proven host has. -/
def slotsFor (host : RosterHost) (nowHour : ℕ) : ℕ :=
  if !host.proven then 1
  else
    match host.uptime with
    | none => 1
    | some uptime =>
      match uptime.availability nowHour (lostAfterHours (some uptime)) with
      | some perMille => min (max ((perMille * 4 + 999) / 1000) 1) 4
      | none => 1

/-- A host that is listed twice keeps its first entry. -/
def addHost (nowHour : ℕ) (t : Table DeviceId (RosterHost × ℕ)) (host : RosterHost) :
    Table DeviceId (RosterHost × ℕ) :=
  if (t[host.device]?).isSome then t else t.insert host.device (host, slotsFor host nowHour)

theorem keyed_foldl (nowHour : ℕ) (hosts : List RosterHost) (device : DeviceId) (r : RosterHost × ℕ)
    (hrow : (hosts.foldl (addHost nowHour) ∅)[device]? = some r) : r.1.device = device := by
  refine List.foldlRecOn
    (motive := fun t => ∀ device r, t[device]? = some r → r.1.device = device) hosts (addHost nowHour)
    ?_ ?_ device r hrow
  · intro _ _ h
    cases h
  · intro t ht host _ device r h
    rw [addHost] at h
    split_ifs at h
    · exact ht device r h
    · rw [Table.getElem?_insert'] at h
      split_ifs at h with heq
      · obtain rfl := Option.some.inj h
        exact heq
      · exact ht device r h

def new (hosts : List RosterHost) (nowHour : ℕ) : Roster where
  hosts := hosts.foldl (addHost nowHour) ∅
  keyed := keyed_foldl nowHour hosts

def get (roster : Roster) (device : DeviceId) :
    Option RosterHost := (roster.hosts[device]?).map Prod.fst

theorem get_device {roster : Roster} {host : RosterHost}
    (h : roster.get device = some host) : host.device = device := by
  obtain ⟨r, hrow, rfl⟩ := Option.map_eq_some_iff.mp h
  exact roster.keyed device r hrow

variable (hash : SlotHash)

/-- The highest hash over the slots of a host. -/
def score (device : DeviceId) (slots : ℕ) (owner : UserId) (chunk : ChunkId) : Id :=
  (List.range slots).foldl (fun best slot => max best (hash device slot owner chunk)) 0

/-- Every host in rendezvous order, best first. -/
def order (roster : Roster) (owner : UserId) (chunk : ChunkId) : List DeviceId :=
  ((roster.hosts.toList.map fun r => toLex (score hash r.1 r.2.2 owner chunk, r.1)).insertionSort
    (· ≥ ·)).map fun r => (ofLex r).2

end Roster

/-! ### A round -/

/-- What a device knows of another: its ring, when it was last seen and last passed an audit,
its record, whether it is draining, since when it is full, and its network of late. -/
structure PeerFacts where
  uptime : Uptime
  lastSeen : Option ℕ
  lastPassed : Option ℕ
  reliability : Reliability
  draining : Bool
  fullSince : Option ℕ
  network : Option Network

/-- What is frozen for one round. -/
structure Placement where
  roster : Roster
  own : List DeviceId
  ownRings : Table DeviceId Uptime
  passedLately : List DeviceId
  releasers : ℕ
  this : DeviceId
  owner : UserId
  goal : Goal
  now : ℕ

variable {chunk : ChunkId}

namespace Placement

/-- How long a host that refused is left alone. -/
def fullRetry : ℕ := 60 * 60

/-- Whether a stamp is within `liveFor`. -/
def lately (now : ℕ) (stamp : Option ℕ) : Bool := stamp.any fun at' => now - Ledger.liveFor ≤ at'

/-- A host as the round sees it. -/
def hostOf (accounts : Table DeviceId UserId) (now : ℕ) (device : DeviceId)
    (facts : PeerFacts) : RosterHost where
  device := device
  account := (accounts[device]?).elim .unknown .known
  uptime := some facts.uptime
  eligible :=
    !facts.reliability.paused && !(facts.fullSince.any fun since => now - fullRetry ≤ since) &&
    !facts.draining
  proven := 0 < facts.reliability.passed && !facts.reliability.paused && !facts.draining
  recent := lately now facts.lastSeen
  network := facts.network

/-- Freeze a round: hosts are the devices seen lately that are not of the account. -/
def build (this : DeviceId) (owner : UserId) (own : List DeviceId) (accounts : Table DeviceId UserId)
    (peers : List (DeviceId × PeerFacts)) (now : ℕ) : Placement :=
  let others := peers.filter fun r => r.1 ≠ this
  let ours := others.filter fun r => r.1 ∈ own
  let hosts := others.filter fun r => r.1 ∉ own ∧ lately now r.2.lastSeen
  { roster := .new (hosts.map fun r => hostOf accounts now r.1 r.2) (now / 3600)
    own := own
    ownRings := ours.foldl (fun t r => t.insert r.1 r.2.uptime) ∅
    passedLately := (hosts.filter fun r => lately now r.2.lastPassed).map Prod.fst
    releasers := 1 + ours.countP fun r => lately now r.2.lastSeen
    this := this
    owner := owner
    goal := .standard
    now := now }

variable (p : Placement)

def ofHost (host : RosterHost) : Holding :=
  ⟨host.device, host.account, false, host.uptime, host.proven, host.recent, host.network⟩

/-- The holder of a record; none for this device. -/
def holding (device : DeviceId) : Option Holding :=
  if device = p.this then none
  else if device ∈ p.own then some ⟨device, .known p.owner, true, p.ownRings[device]?, false, false,
    none⟩
  else some ((p.roster.get device).elim ⟨device, .unknown, false, none, false, false, none⟩ ofHost)

theorem holding_device {p : Placement} {holding : Holding}
    (h : p.holding device = some holding) : holding.device = device := by
  rw [Placement.holding] at h
  split_ifs at h
  · exact congrArg Holding.device (Option.some.inj h).symm
  · obtain rfl := Option.some.inj h
    cases hget : p.roster.get device with
    | none => rfl
    | some host => exact Roster.get_device hget

/-- Evidence good enough to drop a copy on. -/
def isStrict (holding : Holding) : Bool :=
  holding.own || holding.proven && holding.recent && decide (holding.device ∈ p.passedLately)

/-- The holders on strict evidence, of the records of a chunk. -/
def strict (stamps : List (DeviceId × ℕ)) : List Holding :=
  ((stamps.filter fun r => p.now - Ledger.refreshAfter ≤ r.2).filterMap fun r =>
    p.holding r.1).filter p.isStrict

variable (hash : SlotHash)

/-- The holder whose copy of `chunk` this device would drop. -/
def releaseChoice (l : Ledger) (chunk : ChunkId) : Option DeviceId :=
  releaseHolder (p.strict (l.holdersOf chunk)) (p.roster.order hash p.owner chunk) p.goal
    p.releasers (p.now / 3600)

/-- The chunk with these copies is at its goal, on the strict evidence of the round. -/
def MeetsGoal (stamps : List (DeviceId × ℕ)) : Prop :=
  let verdict := assess (p.strict stamps) p.goal (p.now / 3600)
  p.goal.accounts ≤ verdict.accounts ∧ verdict.missPpm ≤ p.goal.missPpm

variable {p hash}

theorem filterMap_holding (rows : List (DeviceId × ℕ)) (device : DeviceId) :
    (rows.filter fun r => r.1 ≠ device).filterMap (fun r => p.holding r.1) =
      (rows.filterMap fun r => p.holding r.1).filter fun holding => holding.device ≠ device := by
  rw [List.filterMap_filter, List.filter_filterMap]
  refine List.filterMap_congr fun r _ => ?_
  cases hholding : p.holding r.1 with
  | none => rw [ite_self, Option.filter_none]
  | some holding =>
    rw [Option.filter_some, holding_device hholding]

/-- A record less is a holder less. -/
theorem strict_filter (stamps : List (DeviceId × ℕ)) (device : DeviceId) :
    p.strict (stamps.filter fun r => r.1 ≠ device) =
      (p.strict stamps).filter fun holding => holding.device ≠ device := by
  rw [strict, List.filter_comm, filterMap_holding, List.filter_comm, strict]

/-- What stays when the chosen copy goes is at the goal. -/
theorem releaseChoice_spec {l : Ledger} (h : p.releaseChoice hash l chunk = some device) :
    p.MeetsGoal ((l.holdersOf chunk).filter fun r => r.1 ≠ device) := by
  obtain ⟨haccounts, hmiss⟩ := releaseHolder_spec h
  rw [MeetsGoal, strict_filter]
  exact ⟨(Nat.le_add_right _ _).trans haccounts, hmiss.trans (Nat.div_le_self _ _)⟩

end Placement

/-! ### A session with a full host -/

namespace Ledger

/-- Up to `limit` of the chunks recorded on `peer`, from a drawn point of its audit order and
around. -/
def holdingsFromRandom (l : Ledger) (peer : DeviceId) (cursor : AuditTag) (limit : ℕ) : List ChunkId :=
  let later := l.holdings.toList.filter fun r => (ofLex r.1).1 = peer ∧ byDevice peer cursor 0 < r.1
  let page := (later.map fun r => (ofLex (ofLex r.1).2).2).take limit
  if page.length < limit then
    page ++ ((l.holdingsOf peer).take (limit - page.length)).filter fun chunk => chunk ∉ page
  else page

theorem holdersOf_dropRecord (tag : ChunkId → AuditTag) (l : Ledger) (chunk : ChunkId)
    (device : DeviceId) (c : ChunkId) : (l.dropRecord tag chunk device).holdersOf c =
      (l.holdersOf c).filter fun r => ¬(c = chunk ∧ r.1 = device) := by
  show (List.filter _ (l.holders.erase (key chunk device)).toList).map _ = _
  rw [Table.toList_erase, holdersOf, List.filter_map, List.filter_filter, List.filter_filter]
  refine congrArg (List.map _) (List.filter_congr fun r _ => ?_)
  have hkey : r.1 = key chunk device ↔ (ofLex r.1).1 = chunk ∧ (ofLex r.1).2 = device :=
    ⟨fun h => h ▸ ⟨rfl, rfl⟩, fun h => Prod.ext h.1 h.2⟩
  by_cases hc : (ofLex r.1).1 = c
  · subst hc
    simp [hkey]
  · simp [hc]

end Ledger

theorem Index.holdersOf_forgetHolders {K : Crypto} (ix : Index K) (chunks : List ChunkId)
    (device : DeviceId)
    (now : ℕ) (c : ChunkId) : (ix.forgetHolders chunks device now).ledger.holdersOf c =
      (ix.ledger.holdersOf c).filter fun r => ¬(c ∈ chunks ∧ r.1 = device) := by
  induction chunks generalizing ix with
  | nil => simp [Index.forgetHolders]
  | cons chunk rest ih =>
    rw [Index.forgetHolders, List.foldl_cons, ← Index.forgetHolders, ih]
    show List.filter _ ((ix.ledger.dropRecord K.auditTag chunk device).holdersOf c) = _
    rw [Ledger.holdersOf_dropRecord, List.filter_filter]
    refine List.filter_congr fun r _ => ?_
    by_cases hc : c = chunk <;> by_cases hr : r.1 = device <;> simp [hc, hr]

/-- What one session starts from: the device, its round, the host, how many chunks wait for
room there, the drawn point, the latest hour in the rings, and whether the host agrees. -/
structure ReleaseSession where
  device : DeviceId
  placement : Placement
  peer : DeviceId
  wanting : ℕ
  cursor : AuditTag
  latestHour : ℕ
  agrees : Bool

variable {K : Crypto}

section
variable (hash : SlotHash)

/-- The chunks whose copy on the host may go. -/
def Store.releaseBatch (st : Store K) (s : ReleaseSession) : List ChunkId :=
  ((st.index.ledger.holdingsFromRandom s.peer s.cursor Request.maxHaveBatch).filter fun chunk =>
    -- without a copy here this device could not put one back
    st.hasChunk chunk ∧
      ¬(st.index.ledger.released[Ledger.key chunk s.peer]?).any
        (fun at' => s.placement.now - at' < Ledger.confirmedFor) ∧
      s.placement.releaseChoice hash st.index.ledger chunk =
        some s.peer).take (min s.wanting Request.maxHaveBatch)

/-- Tell a host which copies may go, stop counting them and queue their chunks. -/
def Store.placedRelease (st : Store K) (s : ReleaseSession) : Store K × ℕ :=
  let now := s.placement.now
  -- a clock behind the rings reads every host as recently seen
  if now / 3600 < s.latestHour then (st, 0)
  else
    let batch := st.releaseBatch hash s
    if batch = [] ∨ ¬s.agrees then (st, 0)
    else
      let forgot := st.index.forgetHolders batch s.peer now
      ({ st with index := { forgot with
            ledger := forgot.ledger.noteReleased batch s.peer now
            tree := forgot.tree.enqueueShort batch now } }, batch.length)

/-- What is dropped was chosen, and only it is forgotten. -/
theorem Store.holdersOf_placedRelease (st : Store K) (s : ReleaseSession) :
    ∃ batch : List ChunkId,
      (∀ chunk ∈ batch, s.placement.releaseChoice hash st.index.ledger chunk = some s.peer) ∧
        ∀ c, (st.placedRelease hash s).1.index.ledger.holdersOf c =
          (st.index.ledger.holdersOf c).filter fun r => ¬(c ∈ batch ∧ r.1 = s.peer) := by
  have hnone : ∃ batch : List ChunkId,
      (∀ chunk ∈ batch, s.placement.releaseChoice hash st.index.ledger chunk = some s.peer) ∧
        ∀ c, st.index.ledger.holdersOf c =
          (st.index.ledger.holdersOf c).filter fun r => ¬(c ∈ batch ∧ r.1 = s.peer) :=
    ⟨[], (by simp), fun c => by simp⟩
  rw [placedRelease]
  dsimp only
  split_ifs
  · exact hnone
  · exact hnone
  · refine ⟨st.releaseBatch hash s, fun chunk hchunk => ?_,
      fun c => st.index.holdersOf_forgetHolders _ _ _ _⟩
    have hmem := List.mem_filter.mp (List.mem_of_mem_take hchunk)
    exact (of_decide_eq_true hmem.2).2.2

end

/-! ### The devices of an account -/

/-- The devices of an account, each with its own store. -/
structure Fleet (K : Crypto) where
  devices : List DeviceId
  stores : DeviceId → Store K

namespace Fleet

def holdersOf (f : Fleet K) (device : DeviceId) (chunk : ChunkId) : List (DeviceId × ℕ) :=
  (f.stores device).index.ledger.holdersOf chunk

/-- The copies of a chunk that nobody has released, of those that there were. -/
def copies (f : Fleet K) (before : Ledger) (chunk : ChunkId) : List (DeviceId × ℕ) :=
  (before.holdersOf chunk).filter fun r => f.devices.all fun device => r ∈ f.holdersOf device chunk

variable {f : Fleet K}

theorem all_mem_holdersOf {r : DeviceId × ℕ} :
    (f.devices.all fun device => r ∈ f.holdersOf device chunk) = true ↔
      ∀ device ∈ f.devices, r ∈ f.holdersOf device chunk := by
  rw [List.all_eq_true]
  exact forall₂_congr fun _ _ => decide_eq_true_iff

variable (hash : SlotHash)

def step (f : Fleet K) (s : ReleaseSession) : Fleet K :=
  { f with stores := Function.update f.stores s.device ((f.stores s.device).placedRelease hash s).1 }

def run (f : Fleet K) (sessions : List ReleaseSession) : Fleet K := sessions.foldl (step hash) f

/-- Of each chunk it has recorded on the host, the device counts no copy that another has
released, or this copy is one that another has released. -/
def Aware (f : Fleet K) (s : ReleaseSession) : Prop :=
  ∀ chunk, s.peer ∈ (f.holdersOf s.device chunk).map Prod.fst →
    (∃ device ∈ f.devices, s.peer ∉ (f.holdersOf device chunk).map Prod.fst) ∨
      ∀ r ∈ f.holdersOf s.device chunk, ∀ device ∈ f.devices, r ∈ f.holdersOf device chunk

def AwareRun (f : Fleet K) : List ReleaseSession → Prop
  | [] => True
  | s :: rest => f.Aware s ∧ (f.step hash s).AwareRun rest

/-- What a device counts is what there was without what it has released. -/
def Thinned (f : Fleet K) (before : Ledger) : Prop :=
  ∀ device ∈ f.devices, ∀ chunk, f.holdersOf device chunk =
    (before.holdersOf chunk).filter fun r => r ∈ f.holdersOf device chunk

variable {hash}

theorem holdersOf_step_ne (f : Fleet K) {s : ReleaseSession} (hne : device ≠ s.device)
    (chunk : ChunkId) : (f.step hash s).holdersOf device chunk = f.holdersOf device chunk := by
  show ((Function.update f.stores s.device _) device).index.ledger.holdersOf chunk = _
  rw [Function.update_of_ne hne]
  rfl

section
variable {f : Fleet K} {s : ReleaseSession} {batch : List ChunkId}
  (hafter : ∀ c, ((f.stores s.device).placedRelease hash s).1.index.ledger.holdersOf c =
    (f.holdersOf s.device c).filter fun r => ¬(c ∈ batch ∧ r.1 = s.peer))
include hafter

theorem holdersOf_step_self (chunk : ChunkId) : (f.step hash s).holdersOf s.device chunk =
    (f.holdersOf s.device chunk).filter fun r => ¬(chunk ∈ batch ∧ r.1 = s.peer) := by
  show ((Function.update f.stores s.device _) s.device).index.ledger.holdersOf chunk = _
  rw [Function.update_self]
  exact hafter chunk

/-- One session takes the host's copy of the chunks in its batch from one ledger. -/
theorem mem_holdersOf_step {r : DeviceId × ℕ} :
    r ∈ (f.step hash s).holdersOf device chunk ↔
      r ∈ f.holdersOf device chunk ∧ (device = s.device → ¬(chunk ∈ batch ∧ r.1 = s.peer)) := by
  by_cases hdevice : device = s.device
  · subst hdevice
    rw [holdersOf_step_self hafter, List.mem_filter, decide_eq_true_eq, forall_prop_of_true rfl]
  · rw [holdersOf_step_ne f hdevice]
    simp only [hdevice, false_imp_iff, and_true]

end

variable {before : Ledger}

theorem Thinned.step (hthin : f.Thinned before) (s : ReleaseSession) :
    (f.step hash s).Thinned before := by
  obtain ⟨batch, -, hafter⟩ := (f.stores s.device).holdersOf_placedRelease hash s
  intro device hdevice chunk
  by_cases hsame : device = s.device
  · subst hsame
    calc (f.step hash s).holdersOf s.device chunk
        = (f.holdersOf s.device chunk).filter fun r => ¬(chunk ∈ batch ∧ r.1 = s.peer) :=
          holdersOf_step_self hafter chunk
      _ = ((before.holdersOf chunk).filter fun r => r ∈ f.holdersOf s.device chunk).filter
            fun r => ¬(chunk ∈ batch ∧ r.1 = s.peer) := by rw [← hthin s.device hdevice chunk]
      _ = (before.holdersOf chunk).filter fun r => r ∈ (f.step hash s).holdersOf s.device chunk := by
          rw [List.filter_filter]
          refine List.filter_congr fun r _ => ?_
          rw [← Bool.decide_and]
          refine decide_eq_decide.mpr ?_
          rw [mem_holdersOf_step hafter, forall_prop_of_true rfl, and_comm]
  · rw [holdersOf_step_ne f hsame]
    exact hthin device hdevice chunk

/-- The copies of a device that counts none that another has released are all the copies. -/
theorem copies_of_lead (hthin : f.Thinned before) (hdevice : device ∈ f.devices)
    (hlead : ∀ r ∈ f.holdersOf device chunk, ∀ other ∈ f.devices, r ∈ f.holdersOf other chunk) :
    f.copies before chunk = f.holdersOf device chunk := by
  rw [hthin device hdevice chunk, copies]
  refine List.filter_congr fun r _ => ?_
  rw [Bool.eq_iff_iff, all_mem_holdersOf, decide_eq_true_eq]
  exact ⟨fun h => h device hdevice, hlead r⟩

/-- **One session** leaves the copies of a chunk as they are, or at the goal. -/
theorem copies_step (hthin : f.Thinned before) {s : ReleaseSession}
    (hdevice : s.device ∈ f.devices) (haware : f.Aware s) (chunk : ChunkId) :
    (f.step hash s).copies before chunk = f.copies before chunk ∨
      s.placement.MeetsGoal ((f.step hash s).copies before chunk) := by
  obtain ⟨batch, hchosen, hafter⟩ := (f.stores s.device).holdersOf_placedRelease hash s
  have hcopies : (f.step hash s).copies before chunk =
      (f.copies before chunk).filter fun r => ¬(chunk ∈ batch ∧ r.1 = s.peer) := by
    rw [copies, copies, List.filter_filter]
    refine List.filter_congr fun r _ => ?_
    rw [Bool.eq_iff_iff, Bool.and_eq_true, all_mem_holdersOf, all_mem_holdersOf, decide_eq_true_eq]
    refine ⟨fun h => ?_, fun h device hd => ?_⟩
    · exact ⟨((mem_holdersOf_step hafter).mp (h s.device hdevice)).2 rfl,
        fun device hd => ((mem_holdersOf_step hafter).mp (h device hd)).1⟩
    · exact (mem_holdersOf_step hafter).mpr ⟨h.2 device hd, fun _ => h.1⟩
  -- nothing goes if the host's copy is not among them
  have hstay : (∀ r ∈ f.copies before chunk, r.1 ≠ s.peer) →
      (f.step hash s).copies before chunk = f.copies before chunk := by
    intro hnot
    rw [hcopies]
    exact List.filter_eq_self.mpr fun r hr => decide_eq_true fun h => hnot r hr h.2
  have hmem : ∀ r ∈ f.copies before chunk, ∀ device ∈ f.devices, r ∈ f.holdersOf device chunk :=
    fun r hr => all_mem_holdersOf.mp (List.mem_filter.mp hr).2
  by_cases hbatch : chunk ∈ batch
  swap
  · left
    rw [hcopies]
    exact List.filter_eq_self.mpr fun r _ => decide_eq_true fun h => hbatch h.1
  by_cases hpeer : s.peer ∈ (f.holdersOf s.device chunk).map Prod.fst
  swap
  · exact .inl (hstay fun r hr h => hpeer (h ▸ List.mem_map_of_mem (hmem r hr s.device hdevice)))
  obtain ⟨other, hother, hgone⟩ | hlead := haware chunk hpeer
  · exact .inl (hstay fun r hr h => hgone (h ▸ List.mem_map_of_mem (hmem r hr other hother)))
  · right
    rw [hcopies, copies_of_lead hthin hdevice hlead]
    simp only [hbatch, true_and]
    exact Placement.releaseChoice_spec (hchosen chunk hbatch)

/-- **The goal is kept.** Own devices start from one ledger and release copies in any order,
each aware of what the others have released. Then of every chunk nothing was released, or what
nobody has released meets the goal, on the evidence some device had. -/
theorem goal_kept {f : Fleet K} {before : Ledger}
    (hsame : ∀ device ∈ f.devices, (f.stores device).index.ledger = before)
    {sessions : List ReleaseSession} (hdevices : ∀ s ∈ sessions, s.device ∈ f.devices)
    (haware : f.AwareRun hash sessions) (chunk : ChunkId) :
    (f.run hash sessions).copies before chunk = before.holdersOf chunk ∨
      ∃ s ∈ sessions, s.placement.MeetsGoal ((f.run hash sessions).copies before chunk) := by
  have hholders : ∀ device ∈ f.devices, f.holdersOf device chunk = before.holdersOf chunk :=
    fun device hdevice => by rw [holdersOf, hsame device hdevice]
  have hthin : f.Thinned before := by
    intro device hdevice c
    rw [holdersOf, hsame device hdevice]
    exact (List.filter_eq_self.mpr fun r hr => decide_eq_true hr).symm
  have hstart : f.copies before chunk = before.holdersOf chunk :=
    List.filter_eq_self.mpr fun r hr => all_mem_holdersOf.mpr fun device hd =>
      (hholders device hd).symm ▸ hr
  rw [← hstart]
  clear hsame hholders hstart
  -- the last session that changed the copies left them at the goal
  induction sessions generalizing f with
  | nil => exact .inl rfl
  | cons s rest ih =>
    have hrest :=
      ih (f := f.step hash s) (fun s' hs' => hdevices s' (List.mem_cons_of_mem _ hs')) haware.2
      (hthin.step s)
    obtain hkept | ⟨s', hs', hgoal⟩ := hrest
    · refine Or.imp hkept.trans (fun hgoal => ⟨s, List.mem_cons_self, ?_⟩)
        (copies_step hthin (hdevices s List.mem_cons_self) haware.1 chunk)
      exact hkept.symm ▸ hgoal
    · exact .inr ⟨s', List.mem_cons_of_mem _ hs', hgoal⟩

/-- If only one device releases, it is aware of all that is. -/
theorem awareRun_of_single
    (hlead : ∀ chunk, ∀ r ∈ f.holdersOf device chunk, ∀ other ∈ f.devices, r ∈ f.holdersOf other chunk)
    {sessions : List ReleaseSession} (hone : ∀ s ∈ sessions, s.device = device) :
    f.AwareRun hash sessions := by
  induction sessions generalizing f with
  | nil => trivial
  | cons s rest ih =>
    obtain rfl := hone s List.mem_cons_self
    refine ⟨fun chunk _ => .inr (hlead chunk), ih (fun chunk r hr other hother => ?_)
      fun s' hs' => hone s' (List.mem_cons_of_mem _ hs')⟩
    obtain ⟨batch, -, hafter⟩ := (f.stores s.device).holdersOf_placedRelease hash s
    obtain ⟨hmem, hstays⟩ := (mem_holdersOf_step hafter).mp hr
    exact (mem_holdersOf_step hafter).mpr ⟨hlead chunk r hmem other hother, fun _ => hstays rfl⟩

/-! ### Two devices and eight hosts -/

/-- Hosts with more than one slot come before the others. -/
def twoTiers : SlotHash := fun device slot _ _ => if slot = 0 then device else device + 1000

/-- A week after hour 0, in seconds. -/
def weekOn : ℕ := 168 * 3600

/-- Tried and seen in each of its first 24 hours. -/
def steady : Uptime := ⟨0, 23, 0xFFFFFF, 0xFFFFFF⟩

/-- A device that was seen and passed an audit just now. -/
def wellKnown (uptime : Uptime) : PeerFacts :=
  ⟨uptime, some weekOn, some weekOn, Reliability.new.passedOne, false, none, none⟩

def eightHosts : List DeviceId := [11, 12, 13, 14, 15, 16, 17, 18]

/-- The round of device `this`, which has measured the hosts of `measured` for a week. The
devices of account 7 are 1 and 2, and each host is an account of its own. -/
def roundOf (this : DeviceId) (measured : List DeviceId) : Placement :=
  .build this 7 [1, 2] (eightHosts.foldl (fun t host => t.insert host (host + 100)) ∅)
    ((1, wellKnown (.new 160)) :: (2, wellKnown (.new 160)) ::
      eightHosts.map fun host => (host, wellKnown (if host ∈ measured then steady else .new 160)))
    weekOn

def oneChunk : ChunkId := symbolic.chunkId [1]

/-- All eight hosts hold the chunk. -/
def heldByEight : Ledger :=
  eightHosts.foldl (fun l host => l.recordStored symbolic.auditTag [oneChunk] host weekOn) .new

/-- A store with that one chunk. -/
def storeOf (device : DeviceId) : Store symbolic :=
  let written := ((Store.new device 7 fourBytes).writeStream "a".toList [.data [1]] 0).1
  { written with index := { written.index with ledger := heldByEight } }

def twoDevices : Fleet symbolic := ⟨[1, 2], storeOf⟩

/-- A session in which the host agrees. -/
def sessionOf (device : DeviceId) (measured : List DeviceId) (peer : DeviceId) : ReleaseSession :=
  ⟨device, roundOf device measured, peer, 1, 0, 168, true⟩

/-- Device 1 drops two of the eight copies. -/
theorem goal_kept_single :
    let f := twoDevices.run twoTiers ([11, 12].map (sessionOf 1 [15, 16, 17, 18]))
    (f.copies heldByEight oneChunk).length = 6 ∧
      (f.copies heldByEight oneChunk = heldByEight.holdersOf oneChunk ∨
        ∃ s ∈ [11, 12].map (sessionOf 1 [15, 16, 17, 18]),
          s.placement.MeetsGoal (f.copies heldByEight oneChunk)) := by
  have hmine : ∀ s ∈ [11, 12].map (sessionOf 1 [15, 16, 17, 18]), s.device = 1 := by
    intro s hs
    obtain ⟨peer, -, rfl⟩ := List.mem_map.mp hs
    rfl
  have hheld : ∀ device, twoDevices.holdersOf device = heldByEight.holdersOf := fun _ => rfl
  have haware : twoDevices.AwareRun twoTiers ([11, 12].map (sessionOf 1 [15, 16, 17, 18])) :=
    awareRun_of_single (fun chunk r hr other _ => hheld other ▸ hheld 1 ▸ hr) hmine
  exact ⟨by decide +kernel,
    goal_kept (fun _ _ => rfl) (fun s hs => hmine s hs ▸ List.mem_cons_self) haware oneChunk⟩

/-- Device 1 has measured four of the hosts and drops the copies on the others; device 2 has
measured those others and drops the copies on the first. -/
theorem all_released :
    (twoDevices.copies heldByEight oneChunk).length = 8 ∧
      (twoDevices.run twoTiers
        ([11, 12, 13, 14].map (sessionOf 1 [15, 16, 17, 18]) ++
          [15, 16, 17, 18].map (sessionOf 2 [11, 12, 13, 14]))).copies
        heldByEight oneChunk = [] := by
  decide +kernel

end Fleet

end Itsanas
