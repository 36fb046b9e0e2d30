/-
# Where a chunk should live

`nodeset.rs` of `itsanas-placement`: the machines that offer storage, and which of them should
hold a chunk. A node has slots by its pledge, counted in the smallest pledge of the set; its
score for a chunk is the highest hash over its slots, and the owner's own devices come before
everyone else.

A node's place for a chunk is the number of nodes before it (`NodeSet.place`), and it is chosen
if that is below the count (`NodeSet.mem_replicasFor`). One node more or less moves only its own
share as long as the slots of the others stay. They do not when it alone had the smallest pledge:
then a chunk can move between two nodes that were there all the time.
-/
import Itsanas.Placement
import Itsanas.Lib.Ranking

namespace Itsanas

/-- Most slots any one node may hold. -/
def maxSlots : ℕ := 64

inductive PlacementError
  | duplicateNode (device : DeviceId)
  | zeroCapacity (device : DeviceId)
  deriving DecidableEq

/-- One machine offering storage. -/
structure StorageNode where
  device : DeviceId
  owner : UserId
  capacityBytes : ℕ
  deriving DecidableEq

namespace NodeSet

/-- What slots are counted in. -/
def smallestPledge (nodes : List StorageNode) : ℕ :=
  max (((nodes.map StorageNode.capacityBytes).min?).getD 1) 1

def slotCount (smallest : ℕ) (node : StorageNode) : ℕ :=
  let ratio := node.capacityBytes / smallest
  min (max (if ratio < 2 ^ 32 then ratio else maxSlots) 1) maxSlots

end NodeSet

/-- The swarm: the nodes in device order, each once and with a pledge, and their slots. -/
structure NodeSet where
  nodes : List StorageNode
  slots : List ℕ
  ordered : nodes.Pairwise fun a b => a.device < b.device
  pledged : ∀ node ∈ nodes, node.capacityBytes ≠ 0
  counted : slots = nodes.map (NodeSet.slotCount (NodeSet.smallestPledge nodes))

namespace NodeSet

def byDevice (nodes : List StorageNode) : List StorageNode :=
  nodes.insertionSort fun a b => a.device ≤ b.device

/-- Two neighbours that are one device. -/
def twin (nodes : List StorageNode) : Option (StorageNode × StorageNode) :=
  (nodes.zip nodes.tail).find? fun pair => pair.1.device = pair.2.device

theorem ordered_of_twin :
    ∀ {nodes : List StorageNode}, nodes.Pairwise (fun a b => a.device ≤ b.device) →
    twin nodes = none → nodes.Pairwise fun a b => a.device < b.device
  | [], _, _ => .nil
  | [a], _, _ => List.pairwise_singleton _ _
  | a :: b :: rest, hsorted, htwin => by
    obtain ⟨hfirst, hrest⟩ := List.pairwise_cons.mp hsorted
    rw [twin, List.tail_cons, List.zip_cons_cons, List.find?_cons] at htwin
    split at htwin
    · cases htwin
    · next hne =>
      have hrest' := ordered_of_twin hrest htwin
      have hab : a.device < b.device :=
        lt_of_le_of_ne (hfirst b List.mem_cons_self) (of_decide_eq_false hne)
      refine List.pairwise_cons.mpr ⟨fun c hc => ?_, hrest'⟩
      rcases List.mem_cons.mp hc with rfl | hc
      · exact hab
      · exact hab.trans ((List.pairwise_cons.mp hrest').1 c hc)

theorem sorted_byDevice (nodes : List StorageNode) :
    (byDevice nodes).Pairwise fun a b => a.device ≤ b.device :=
  letI : IsTrans StorageNode fun a b => a.device ≤ b.device := ⟨fun _ _ _ => le_trans⟩
  letI : Std.Total fun a b : StorageNode => a.device ≤ b.device :=
    ⟨fun a b => le_total a.device b.device⟩
  List.pairwise_insertionSort _ nodes

variable {nodes : List StorageNode}

theorem ordered_byDevice (h : twin (byDevice nodes) = none) :
    (byDevice nodes).Pairwise fun a b => a.device < b.device :=
  ordered_of_twin (sorted_byDevice nodes) h

theorem pledged_of_find
    (h : nodes.find? (fun node => node.capacityBytes = 0) = none) :
    ∀ node ∈ nodes, node.capacityBytes ≠ 0 :=
  fun node hnode hzero => List.find?_eq_none.mp h node hnode (decide_eq_true hzero)

/-- Build a node set, the nodes in device order. -/
def new (nodes : List StorageNode) : Except PlacementError NodeSet :=
  match htwin : twin (byDevice nodes) with
  | some pair => .error (.duplicateNode pair.1.device)
  | none =>
    match hempty : (byDevice nodes).find? fun node => node.capacityBytes = 0 with
    | some empty => .error (.zeroCapacity empty.device)
    | none =>
      .ok ⟨byDevice nodes, (byDevice nodes).map (slotCount (smallestPledge (byDevice nodes))),
        ordered_byDevice htwin, pledged_of_find hempty, rfl⟩

theorem nodes_of_new {set : NodeSet} (h : new nodes = .ok set) :
    set.nodes = byDevice nodes := by
  unfold new at h
  split at h
  · cases h
  · split at h
    · cases h
    · rw [← Except.ok.inj h]

/-- How many slots a node holds, 0 if it is not in the set. -/
def slotsFor (set : NodeSet) (device : DeviceId) : ℕ :=
  (set.nodes.findIdx? fun node => node.device = device).elim 0 fun index => set.slots.getD index 0

variable (hash : SlotHash)

/-- Which nodes should hold a chunk, best first: the owner's own devices, then the others by
their score. -/
def replicasFor (set : NodeSet) (owner : UserId) (chunk : ChunkId) (count : ℕ) : List DeviceId :=
  if count = 0 ∨ set.nodes = [] then []
  else
    let chosen := ((set.nodes.filter fun node => node.owner = owner).map StorageNode.device).take count
    if count ≤ chosen.length then chosen
    else
      -- the device id breaks a tie in the scores
      let ranked := ((set.nodes.zip set.slots).filter fun r => r.1.owner ≠ owner).map fun r =>
        toLex (Roster.score hash r.1.device r.2 owner chunk, r.1.device)
      chosen ++ ((ranked.insertionSort (· ≥ ·)).take (count - chosen.length)).map fun r => (ofLex r).2

/-! ### Places -/

theorem eq_of_device (set : NodeSet) {a b : StorageNode} (ha : a ∈ set.nodes) (hb : b ∈ set.nodes)
    (h : a.device = b.device) : a = b := by
  have hinj := List.pairwise_iff_getElem.mp set.ordered
  obtain ⟨i, hi, rfl⟩ := List.mem_iff_getElem.mp ha
  obtain ⟨j, hj, rfl⟩ := List.mem_iff_getElem.mp hb
  rcases lt_trichotomy i j with hij | rfl | hji
  · exact absurd h (hinj i j hi hj hij).ne
  · rfl
  · exact absurd h.symm (hinj j i hj hi hji).ne

theorem nodup_nodes (set : NodeSet) : set.nodes.Nodup :=
  set.ordered.imp fun hlt he => absurd hlt (by rw [he]; exact lt_irrefl _)

/-- The slots of a node of the set. -/
def slotsOf (set : NodeSet) (node : StorageNode) : ℕ := slotCount (smallestPledge set.nodes) node

variable {node : StorageNode}

theorem slotsFor_eq (set : NodeSet) (h : node ∈ set.nodes) :
    set.slotsFor node.device = set.slotsOf node := by
  obtain ⟨i, hi, hnode⟩ := List.mem_iff_getElem.mp h
  have hfind : set.nodes.findIdx? (fun n => n.device = node.device) = some i := by
    refine List.findIdx?_eq_some_iff_getElem.mpr ⟨hi, by simp [hnode], fun j hj hdevice => ?_⟩
    have hlt := List.pairwise_iff_getElem.mp set.ordered j i (hj.trans hi) hi hj
    rw [hnode, of_decide_eq_true hdevice] at hlt
    exact lt_irrefl _ hlt
  rw [slotsFor, hfind, Option.elim_some, set.counted, List.getD_eq_getElem?_getD, List.getElem?_map,
    List.getElem?_eq_getElem hi, hnode]
  rfl

section
variable (set : NodeSet) (owner : UserId) (chunk : ChunkId)

/-- What the others are ranked by. -/
def key (node : StorageNode) : Id ×ₗ DeviceId :=
  toLex (Roster.score hash node.device (set.slotsOf node) owner chunk, node.device)

/-- How many nodes come before this one. -/
def place (node : StorageNode) : ℕ :=
  if node.owner = owner then set.nodes.countP fun n => n.owner = owner ∧ n.device < node.device
  else
    (set.nodes.countP fun n => n.owner = owner) +
      set.nodes.countP fun n => n.owner ≠ owner ∧ set.key hash owner chunk node <
        set.key hash owner chunk n

def own : List DeviceId := (set.nodes.filter fun node => node.owner = owner).map StorageNode.device

def ranked : List (Id ×ₗ DeviceId) :=
  ((set.nodes.filter fun node => node.owner ≠ owner).map (set.key hash owner chunk)).insertionSort
    (· ≥ ·)

/-- Everyone, best first. -/
def lineup : List DeviceId := set.own owner ++ (set.ranked hash owner chunk).map fun r => (ofLex r).2

theorem replicasFor_eq (count : ℕ) :
    set.replicasFor hash owner chunk count = (set.lineup hash owner chunk).take count := by
  have hkeys : ((set.nodes.zip set.slots).filter fun r => r.1.owner ≠ owner).map (fun r =>
      toLex (Roster.score hash r.1.device r.2 owner chunk, r.1.device)) =
      (set.nodes.filter fun node => node.owner ≠ owner).map (set.key hash owner chunk) := by
    rw [set.counted, ← List.map_prod_left_eq_zip, List.filter_map, List.map_map]
    rfl
  unfold replicasFor lineup
  dsimp only
  rw [hkeys]
  split_ifs with hnone hfull
  · rcases hnone with rfl | hnodes
    · rw [List.take_zero]
    · simp [own, ranked, hnodes]
  · have hle : count ≤ (set.own owner).length := by
      rw [List.length_take] at hfull
      exact le_trans hfull (min_le_right _ _)
    rw [List.take_append_of_le_length hle]
    rfl
  · have hlt : (set.own owner).length < count := by
      rw [List.length_take] at hfull
      have : (set.own owner).length = ((set.nodes.filter fun node => node.owner = owner).map
        StorageNode.device).length := rfl
      omega
    have htake : (set.own owner).take count = set.own owner := List.take_of_length_le hlt.le
    rw [List.take_append, htake]
    change (set.own owner).take count ++ ((set.ranked hash owner chunk).take
      (count - ((set.own owner).take count).length)).map _ = _
    rw [htake, List.map_take]

theorem ordered_own : (set.own owner).Pairwise (· < ·) :=
  List.pairwise_map.mpr (set.ordered.filter _)

theorem nodup_keys :
    ((set.nodes.filter fun node => node.owner ≠ owner).map (set.key hash owner chunk)).Nodup := by
  refine List.pairwise_map.mpr ((set.ordered.filter _).imp fun {a b} hlt he => ?_)
  have hdevice : a.device = b.device := congrArg (fun r : Id ×ₗ DeviceId => (ofLex r).2) he
  exact absurd hdevice hlt.ne

theorem ordered_ranked : (set.ranked hash owner chunk).Pairwise (· > ·) := by
  have hsorted := List.pairwise_insertionSort (· ≥ ·)
    ((set.nodes.filter fun node => node.owner ≠ owner).map (set.key hash owner chunk))
  have hnodup : (set.ranked hash owner chunk).Nodup :=
    (List.perm_insertionSort _ _).nodup_iff.mpr (set.nodup_keys hash owner chunk)
  exact (hsorted.and hnodup).imp fun {a b} h => lt_of_le_of_ne h.1 h.2.symm

theorem mem_ranked (h : node ∈ set.nodes) :
    set.key hash owner chunk node ∈ set.ranked hash owner chunk ↔ node.owner ≠ owner := by
  rw [ranked, List.mem_insertionSort, List.mem_map]
  constructor
  · rintro ⟨other, hother, hkey⟩
    obtain ⟨hmem, howner⟩ := List.mem_filter.mp hother
    have hdevice : other.device = node.device := congrArg (fun r : Id ×ₗ DeviceId => (ofLex r).2) hkey
    rw [← set.eq_of_device hmem h hdevice]
    exact of_decide_eq_true howner
  · exact fun howner => ⟨node, List.mem_filter.mpr ⟨h, decide_eq_true howner⟩, rfl⟩

/-- **A node is chosen if fewer than `count` come before it.** -/
theorem mem_replicasFor (h : node ∈ set.nodes) (count : ℕ) :
    node.device ∈ set.replicasFor hash owner chunk count ↔ set.place hash owner chunk node <
      count := by
  have hown : ∀ k, node.device ∈ (set.own owner).take k ↔ node.owner = owner ∧
      (set.nodes.countP fun n => n.owner = owner ∧ n.device < node.device) < k := by
    intro k
    have hmem : node.device ∈ set.own owner ↔ node.owner = owner := by
      rw [own, List.mem_map]
      constructor
      · rintro ⟨other, hother, hdevice⟩
        obtain ⟨hmem, howner⟩ := List.mem_filter.mp hother
        rw [← set.eq_of_device hmem h hdevice]
        exact of_decide_eq_true howner
      · exact fun howner => ⟨node, List.mem_filter.mpr ⟨h, decide_eq_true howner⟩, rfl⟩
    rw [Ranking.mem_take (fun a b => lt_asymm) (set.ordered_own owner), hmem, own, List.countP_map,
      List.countP_filter]
    simp only [Function.comp_def, Bool.decide_and, Bool.and_comm]
  have hothers : ∀ k, node.device ∈ ((set.ranked hash owner chunk).map fun r => (ofLex r).2).take k ↔
      node.owner ≠ owner ∧ (set.nodes.countP fun n =>
        n.owner ≠ owner ∧ set.key hash owner chunk node < set.key hash owner chunk n) < k := by
    intro k
    have hkey : node.device ∈ ((set.ranked hash owner chunk).map fun r => (ofLex r).2).take k ↔
        set.key hash owner chunk node ∈ (set.ranked hash owner chunk).take k := by
      rw [← List.map_take, List.mem_map]
      constructor
      · rintro ⟨r, hr, hdevice⟩
        have hrank := List.mem_of_mem_take hr
        rw [ranked, List.mem_insertionSort, List.mem_map] at hrank
        obtain ⟨other, hother, rfl⟩ := hrank
        rwa [← set.eq_of_device (List.mem_of_mem_filter hother) h hdevice]
      · exact fun hr => ⟨_, hr, rfl⟩
    rw [hkey, Ranking.mem_take (fun a b => lt_asymm) (set.ordered_ranked hash owner chunk),
      set.mem_ranked hash owner chunk h, ranked, (List.perm_insertionSort _ _).countP_eq,
        List.countP_map,
      List.countP_filter]
    simp only [Function.comp_def, Bool.decide_and, Bool.and_comm]
  have hlen : (set.own owner).length = set.nodes.countP fun n => n.owner = owner := by
    rw [own, List.length_map, List.countP_eq_length_filter]
  rw [replicasFor_eq, lineup, List.take_append, List.mem_append, hown, hothers, hlen, place]
  by_cases howner : node.owner = owner
  · simp [howner]
  · simp only [howner, false_and, false_or, not_false_eq_true, true_and, ne_eq, if_false]
    omega

/-- **An answer has distinct devices, as many as asked for or as there are, the owner's own
before all others.** -/
theorem replicasFor_spec (count : ℕ) :
    (set.replicasFor hash owner chunk count).Nodup ∧
      (set.replicasFor hash owner chunk count).length = min count set.nodes.length ∧
      ∃ own others, set.replicasFor hash owner chunk count = own ++ others ∧
        (∀ device ∈ own, ∃ node ∈ set.nodes, node.device = device ∧ node.owner = owner) ∧
        (∀ device ∈ others, ∃ node ∈ set.nodes, node.device = device ∧ node.owner ≠ owner) ∧
        (others ≠ [] → ∀ node ∈ set.nodes, node.owner = owner → node.device ∈ own) := by
  have hown : ∀ device ∈ set.own owner, ∃ node ∈ set.nodes, node.device = device ∧
      node.owner = owner := by
    intro device hdevice
    obtain ⟨node, hnode, rfl⟩ := List.mem_map.mp hdevice
    exact ⟨node, List.mem_of_mem_filter hnode, rfl, of_decide_eq_true (List.mem_filter.mp hnode).2⟩
  have hothers : ∀ device ∈ (set.ranked hash owner chunk).map (fun r => (ofLex r).2),
      ∃ node ∈ set.nodes, node.device = device ∧ node.owner ≠ owner := by
    intro device hdevice
    obtain ⟨r, hr, rfl⟩ := List.mem_map.mp hdevice
    rw [ranked, List.mem_insertionSort] at hr
    obtain ⟨node, hnode, rfl⟩ := List.mem_map.mp hr
    exact ⟨node, List.mem_of_mem_filter hnode, rfl, of_decide_eq_true (List.mem_filter.mp hnode).2⟩
  have hlength : (set.lineup hash owner chunk).length = set.nodes.length := by
    have hsplit := List.length_eq_length_filter_add (l := set.nodes) fun node => node.owner = owner
    simp only [lineup, own, ranked, List.length_append, List.length_map, List.length_insertionSort]
    rw [hsplit]
    simp
  have hranked : ((set.ranked hash owner chunk).map fun r => (ofLex r).2).Nodup := by
    have hdevices : ((set.nodes.filter fun node => node.owner ≠ owner).map StorageNode.device).Nodup :=
      (List.pairwise_map.mpr (set.ordered.filter _)).imp fun hlt => ne_of_lt hlt
    have hperm := (List.perm_insertionSort (· ≥ ·)
      ((set.nodes.filter fun node => node.owner ≠ owner).map (set.key hash owner chunk))).map
        fun r : Id ×ₗ DeviceId => (ofLex r).2
    rw [List.map_map] at hperm
    exact hperm.nodup_iff.mpr hdevices
  have hnodup : (set.lineup hash owner chunk).Nodup := by
    refine List.nodup_append'.mpr ⟨(set.ordered_own owner).imp fun hlt => ne_of_lt hlt, hranked, ?_⟩
    intro device hdevice hdevice'
    obtain ⟨node, hnode, hd, howner⟩ := hown device hdevice
    obtain ⟨node', hnode', hd', howner'⟩ := hothers device hdevice'
    rw [set.eq_of_device hnode hnode' (hd.trans hd'.symm)] at howner
    exact howner' howner
  rw [replicasFor_eq]
  refine ⟨hnodup.sublist (List.take_sublist _ _), by rw [List.length_take, hlength],
    (set.own owner).take count, (((set.ranked hash owner chunk).map fun r => (ofLex r).2).take
      (count - (set.own owner).length)), by rw [lineup, List.take_append],
    fun device h => hown device (List.mem_of_mem_take h), fun device h =>
      hothers device (List.mem_of_mem_take h),
    fun hne node hnode howner => ?_⟩
  have hlt : (set.own owner).length < count := by
    by_contra hle
    rw [Nat.sub_eq_zero_of_le (not_lt.mp hle), List.take_zero] at hne
    exact hne rfl
  rw [List.take_of_length_le hlt.le]
  exact List.mem_map.mpr ⟨node, List.mem_filter.mpr ⟨hnode, decide_eq_true howner⟩, rfl⟩

end

/-! ### Slots -/

theorem slotCount_eq (smallest : ℕ) (node : StorageNode) :
    slotCount smallest node = min (max (node.capacityBytes / smallest) 1) maxSlots := by
  unfold slotCount maxSlots
  dsimp only
  split_ifs <;> omega

theorem smallestPledge_pos (nodes : List StorageNode) : 0 < smallestPledge nodes := by
  unfold smallestPledge
  omega

/-- The smallest pledge of a part is no smaller. -/
theorem smallestPledge_mono {part nodes : List StorageNode} (hne : part ≠ []) (hsub : part ⊆ nodes) :
    smallestPledge nodes ≤ smallestPledge part := by
  have hpart : part.map StorageNode.capacityBytes ≠ [] := fun h => hne (List.map_eq_nil_iff.mp h)
  obtain ⟨least, hleast⟩ := Option.isSome_iff_exists.mp (List.isSome_min?_of_ne_nil hpart)
  obtain ⟨node, hnode, hcap⟩ := List.mem_map.mp (List.min?_eq_some_iff.mp hleast).1
  have hmem : node.capacityBytes ∈ nodes.map StorageNode.capacityBytes :=
    List.mem_map_of_mem (hsub hnode)
  obtain ⟨all, hall⟩ := Option.isSome_iff_exists.mp (List.isSome_min?_of_mem hmem)
  have hle : all ≤ least := hcap ▸ (List.min?_eq_some_iff.mp hall).2 _ hmem
  rw [smallestPledge, smallestPledge, hleast, hall]
  exact max_le_max_right 1 hle

theorem slotCount_anti {s s' : ℕ} (hpos : 0 < s) (hle : s ≤ s') (node : StorageNode) :
    slotCount s' node ≤ slotCount s node := by
  have hratio : node.capacityBytes / s' ≤ node.capacityBytes / s := Nat.div_le_div_left hle hpos
  rw [slotCount_eq, slotCount_eq]
  omega

theorem slotsOf_pos (set : NodeSet) (node : StorageNode) : 0 < set.slotsOf node := by
  rw [slotsOf, slotCount_eq, maxSlots]
  omega

/-! ### Scores -/

theorem foldl_max_le {f : ℕ → Id} {b : Id} : ∀ {l : List ℕ} {a : Id}, a ≤ b → (∀ s ∈ l, f s ≤ b) →
    l.foldl (fun best s => max best (f s)) a ≤ b
  | [], _, ha, _ => ha
  | s :: l, a, ha, hl => by
    have hrest : ∀ t ∈ l, f t ≤ b := fun t ht => hl t (List.mem_cons_of_mem _ ht)
    exact foldl_max_le (l := l) (max_le ha (hl s List.mem_cons_self)) hrest

theorem le_foldl_max {f : ℕ → Id} : ∀ {l : List ℕ} {a : Id},
    a ≤ l.foldl (fun best s => max best (f s)) a ∧
      ∀ s ∈ l, f s ≤ l.foldl (fun best s => max best (f s)) a
  | [], a => ⟨le_rfl, fun _ h => absurd h List.not_mem_nil⟩
  | s :: l, a => by
    obtain ⟨hseed, hrest⟩ := le_foldl_max (f := f) (l := l) (a := max a (f s))
    refine ⟨(le_max_left _ _).trans hseed, fun t ht => ?_⟩
    rcases List.mem_cons.mp ht with rfl | ht
    · exact (le_max_right _ _).trans hseed
    · exact hrest t ht

/-- The score is the hash of a slot if no slot has a higher one. -/
theorem score_eq {hash : SlotHash} {device : DeviceId} {slots : ℕ} {owner : UserId}
    {chunk : ChunkId} {b : Id}
    (hle : ∀ s < slots, hash device s owner chunk ≤ b) {s : ℕ} (hs : s < slots)
    (heq : hash device s owner chunk = b) : Roster.score hash device slots owner chunk = b := by
  refine le_antisymm (foldl_max_le (Fin.zero_le b) fun t ht => hle t (List.mem_range.mp ht)) ?_
  rw [← heq]
  exact (le_foldl_max (f := fun t => hash device t owner chunk)).2 s (List.mem_range.mpr hs)

/-! ### One node more or less -/

/-- What keeps one node from moving the others' chunks: the slots of the other nodes that are not
the owner's own stay; or the count stops before any of these is chosen, or leaves none of them
out. -/
def Steady (without full : NodeSet) (owner : UserId) (count : ℕ) : Prop :=
  (∀ other ∈ without.nodes, other.owner ≠ owner →
      full.slotsFor other.device = without.slotsFor other.device) ∨
    (count ≤ full.nodes.countP fun other => other.owner = owner) ∨ without.nodes.length ≤ count

section
variable {node : StorageNode} {without full : NodeSet} (owner : UserId)

theorem perm_of_new {nodes rest : List StorageNode} (hperm : nodes.Perm (node :: rest))
    (hfull : new nodes = .ok full) (hrest : new rest = .ok without) :
    full.nodes.Perm (node :: without.nodes) := by
  rw [nodes_of_new hfull, nodes_of_new hrest]
  exact (List.perm_insertionSort _ _).trans
    (hperm.trans ((List.perm_insertionSort _ rest).symm.cons node))

/-- If the others that are chosen stay so without the node, it moves only its own share. -/
theorem moves_of_kept (hash : SlotHash) (chunk : ChunkId) (count : ℕ)
    (hperm : full.nodes.Perm (node :: without.nodes))
    (hkept : ∀ other ∈ without.nodes, full.place hash owner chunk other < count →
      without.place hash owner chunk other < count) :
    Ranking.Moves node.device (without.replicasFor hash owner chunk count)
      (full.replicasFor hash owner chunk count) := by
  obtain ⟨hnodup, hlen, -⟩ := without.replicasFor_spec hash owner chunk count
  obtain ⟨hnodup', hlen', own, others, hsplit, hown, hothers, -⟩ :=
    full.replicasFor_spec hash owner chunk count
  rw [hperm.length_eq, List.length_cons] at hlen'
  refine Ranking.Moves.of_subset hnodup hnodup' hlen hlen' fun device hdevice hne => ?_
  have hnode : ∃ other ∈ full.nodes, other.device = device := by
    rw [hsplit] at hdevice
    rcases List.mem_append.mp hdevice with h | h
    · obtain ⟨other, hmem, hd, -⟩ := hown device h
      exact ⟨other, hmem, hd⟩
    · obtain ⟨other, hmem, hd, -⟩ := hothers device h
      exact ⟨other, hmem, hd⟩
  obtain ⟨other, hmem, rfl⟩ := hnode
  have hrest : other ∈ without.nodes := by
    rcases List.mem_cons.mp (hperm.mem_iff.mp hmem) with rfl | hrest
    · exact absurd rfl hne
    · exact hrest
  have hbefore := (full.mem_replicasFor hash owner chunk hmem count).mp hdevice
  exact (without.mem_replicasFor hash owner chunk hrest count).mpr (hkept other hrest hbefore)

theorem length_nodes (set : NodeSet) : set.nodes.length =
    (set.nodes.countP fun n => n.owner = owner) + set.nodes.countP fun n => n.owner ≠ owner := by
  rw [List.length_eq_countP_add_countP fun n : StorageNode => decide (n.owner = owner)]
  simp

/-- Nobody comes before himself. -/
theorem place_lt_length (set : NodeSet) (hash : SlotHash) (chunk : ChunkId) {other : StorageNode}
    (hother : other ∈ set.nodes) (howner : other.owner ≠ owner) :
    set.place hash owner chunk other < set.nodes.length := by
  have hbefore : (set.nodes.countP fun n => n.owner ≠ owner ∧
        set.key hash owner chunk other < set.key hash owner chunk n) <
      set.nodes.countP fun n => n.owner ≠ owner := by
    have hlt : ((set.nodes.filter fun n => n.owner ≠ owner).countP fun n =>
        set.key hash owner chunk other < set.key hash owner chunk n) <
        (set.nodes.filter fun n => n.owner ≠ owner).length :=
      List.countP_lt_length_iff.mpr
        ⟨other, List.mem_filter.mpr ⟨hother, decide_eq_true howner⟩, by simp⟩
    rw [List.countP_filter, ← List.countP_eq_length_filter] at hlt
    simpa only [Bool.decide_and, Bool.and_comm] using hlt
  rw [place, if_neg howner, length_nodes owner]
  omega

/-- The others that are chosen stay so. -/
theorem kept_of_steady (hash : SlotHash) (chunk : ChunkId) {count : ℕ}
    (hperm : full.nodes.Perm (node :: without.nodes)) (hsteady : Steady without full owner count)
    {other : StorageNode} (hother : other ∈ without.nodes)
    (hchosen : full.place hash owner chunk other < count) :
    without.place hash owner chunk other < count := by
  have hmem : ∀ {n}, n ∈ without.nodes → n ∈ full.nodes := fun hn =>
    hperm.mem_iff.mpr (List.mem_cons_of_mem _ hn)
  by_cases howner : other.owner = owner
  · refine lt_of_le_of_lt ?_ hchosen
    rw [place, place, if_pos howner, if_pos howner, hperm.countP_eq, List.countP_cons]
    exact Nat.le_add_right _ _
  · rcases hsteady with hslots | hown | hall
    · -- the same slots are the same keys
      have hkey : ∀ n ∈ without.nodes, n.owner ≠ owner →
          full.key hash owner chunk n = without.key hash owner chunk n := by
        intro n hn hne
        have hslot := hslots n hn hne
        rw [slotsFor_eq _ (hmem hn), slotsFor_eq _ hn] at hslot
        rw [key, key, hslot]
      have hsame : (without.nodes.countP fun n => n.owner ≠ owner ∧
            full.key hash owner chunk other < full.key hash owner chunk n) =
          without.nodes.countP fun n => n.owner ≠ owner ∧
            without.key hash owner chunk other < without.key hash owner chunk n := by
        refine List.countP_congr fun n hn => ?_
        simp only [decide_eq_true_eq]
        refine and_congr_right fun hne => ?_
        rw [hkey other hother howner, hkey n hn hne]
      refine lt_of_le_of_lt ?_ hchosen
      rw [place, place, if_neg howner, if_neg howner, hperm.countP_eq, hperm.countP_eq,
        List.countP_cons, List.countP_cons]
      omega
    · rw [place, if_neg howner] at hchosen
      omega
    · exact (place_lt_length owner without hash chunk hother howner).trans_le hall

/-- With none of the others before it, a node comes right after the owner's own. -/
theorem place_first (set : NodeSet) (hash : SlotHash) (chunk : ChunkId) {a : StorageNode}
    (howner : a.owner ≠ owner)
    (hfirst : ∀ n ∈ set.nodes, ¬set.key hash owner chunk a < set.key hash owner chunk n) :
    set.place hash owner chunk a = set.nodes.countP fun n => n.owner = owner := by
  have hnone : (set.nodes.countP fun n => n.owner ≠ owner ∧
      set.key hash owner chunk a < set.key hash owner chunk n) = 0 :=
    List.countP_eq_zero.mpr fun n hn h => hfirst n hn (of_decide_eq_true h).2
  rw [place, if_neg howner, hnone, Nat.add_zero]

/-- With all of the others before it, it comes last. -/
theorem place_last (set : NodeSet) (hash : SlotHash) (chunk : ChunkId) {a : StorageNode}
    (ha : a ∈ set.nodes) (howner : a.owner ≠ owner)
    (hlast : ∀ n ∈ set.nodes, n ≠ a → set.key hash owner chunk a < set.key hash owner chunk n) :
    set.place hash owner chunk a + 1 = set.nodes.length := by
  obtain ⟨l, r, hsplit⟩ := List.append_of_mem ha
  have hperm : set.nodes.Perm (a :: (l ++ r)) := hsplit ▸ List.perm_middle
  have hbefore : ((l ++ r).countP fun n => n.owner ≠ owner ∧
      set.key hash owner chunk a < set.key hash owner chunk n) =
      (l ++ r).countP fun n => n.owner ≠ owner := by
    refine List.countP_congr fun n hn => ?_
    have hne : n ≠ a := fun h =>
      (List.nodup_cons.mp (hperm.nodup_iff.mp set.nodup_nodes)).1 (h ▸ hn)
    simp [hlast n (hperm.mem_iff.mpr (List.mem_cons_of_mem a hn)) hne]
  have hothers : (set.nodes.countP fun n => n.owner ≠ owner ∧
      set.key hash owner chunk a < set.key hash owner chunk n) + 1 =
      set.nodes.countP fun n => n.owner ≠ owner := by
    rw [hperm.countP_eq, hperm.countP_eq, List.countP_cons, List.countP_cons, hbefore]
    simp [howner]
  rw [place, if_neg howner, length_nodes owner]
  omega

/-- Hashes that tell the two sets apart: `a` is first by a slot it has only in the larger one,
and the last of the others without it. -/
def apart (node a : StorageNode) (slot : ℕ) : SlotHash := fun device s _ _ =>
  if device = a.device then (if s = slot then 2 else 0) else if device = node.device then 0 else 1

section
variable {a other : StorageNode} {slot slots : ℕ} (chunk : ChunkId)

theorem score_apart_first (h : slot < slots) :
    Roster.score (apart node a slot) a.device slots owner chunk = 2 := by
  refine score_eq (fun s _ => ?_) h (by rw [apart, if_pos rfl, if_pos rfl])
  rw [apart, if_pos rfl]
  split_ifs
  · exact le_rfl
  · exact Fin.zero_le _

theorem score_apart_last (hpos : 0 < slot) :
    Roster.score (apart node a slot) a.device slot owner chunk = 0 := by
  have hslot : ∀ s < slot, apart node a slot a.device s owner chunk = 0 := by
    intro s hs
    rw [apart, if_pos rfl, if_neg hs.ne]
  exact score_eq (fun s hs => (hslot s hs).le) hpos (hslot 0 hpos)

theorem score_apart_le (ha : other.device ≠ a.device) :
    Roster.score (apart node a slot) other.device slots owner chunk ≤ 1 := by
  refine foldl_max_le (Fin.zero_le 1) fun s _ => ?_
  rw [apart, if_neg ha]
  split_ifs
  · exact Fin.zero_le 1
  · exact le_rfl

theorem score_apart_other (ha : other.device ≠ a.device) (hnode : other.device ≠ node.device)
    (hpos : 0 < slots) : Roster.score (apart node a slot) other.device slots owner chunk = 1 := by
  have hslot : ∀ s, apart node a slot other.device s owner chunk = 1 := by
    intro s
    rw [apart, if_neg ha, if_neg hnode]
  exact score_eq (fun s _ => (hslot s).le) hpos (hslot 0)

/-- In the larger set only the owner's own are before `a`. -/
theorem place_apart_first (ha : a ∈ full.nodes) (howner : a.owner ≠ owner)
    (hslot : slot < full.slotsOf a) :
    full.place (apart node a slot) owner chunk a = full.nodes.countP fun n => n.owner = owner := by
  refine place_first owner full _ chunk howner fun n hn hlt => ?_
  rw [key, key, score_apart_first owner chunk hslot, Prod.Lex.toLex_lt_toLex] at hlt
  by_cases hdevice : n.device = a.device
  · rw [full.eq_of_device hn ha hdevice, score_apart_first owner chunk hslot] at hlt
    exact hlt.elim (lt_irrefl _) fun h => lt_irrefl _ h.2
  · have hle : Roster.score (apart node a slot) n.device (full.slotsOf n) owner chunk ≤ 1 :=
      score_apart_le owner chunk hdevice
    have htwo : (2 : Id) ≤ 1 := (hlt.elim le_of_lt fun h => h.1.le).trans hle
    exact absurd htwo (by decide)

/-- In the smaller one all are. -/
theorem place_apart_last (ha : a ∈ without.nodes) (howner : a.owner ≠ owner)
    (hnode : ∀ n ∈ without.nodes, n.device ≠ node.device) :
    without.place (apart node a (without.slotsOf a)) owner chunk a + 1 = without.nodes.length := by
  refine place_last owner without _ chunk ha howner fun n hn hne => ?_
  rw [key, key, score_apart_last owner chunk (slotsOf_pos _ _),
    score_apart_other owner chunk (fun h => hne (without.eq_of_device hn ha h)) (hnode n hn)
      (slotsOf_pos _ _), Prod.Lex.toLex_lt_toLex]
  exact Or.inl (show (0 : Id) < 1 by decide)

end

/-- **Where slots change and the count leaves some others out and not all, some chunk moves between
two of them.** -/
theorem moved_of_not_steady {count : ℕ} (hperm : full.nodes.Perm (node :: without.nodes))
    (hsteady : ¬Steady without full owner count) :
    ∃ hash, ∀ chunk, ¬Ranking.Moves node.device (without.replicasFor hash owner chunk count)
      (full.replicasFor hash owner chunk count) := by
  rw [Steady, not_or, not_or, not_le, not_le] at hsteady
  obtain ⟨hslots, hsome, hfew⟩ := hsteady
  simp only [not_forall] at hslots
  obtain ⟨a, ha, howner, hne⟩ := hslots
  have hmem : ∀ {n}, n ∈ without.nodes → n ∈ full.nodes := fun hn =>
    hperm.mem_iff.mpr (List.mem_cons_of_mem _ hn)
  have hfewer : without.slotsOf a < full.slotsOf a := by
    rw [slotsFor_eq _ (hmem ha), slotsFor_eq _ ha] at hne
    refine lt_of_le_of_ne (slotCount_anti (smallestPledge_pos _) ?_ a) (Ne.symm hne)
    exact smallestPledge_mono (List.ne_nil_of_mem ha) fun n hn => hmem hn
  have hnode : ∀ n ∈ without.nodes, n.device ≠ node.device := by
    intro n hn h
    have hnodup : (node :: without.nodes).Nodup := hperm.nodup_iff.mp full.nodup_nodes
    have heq := full.eq_of_device (hmem hn) (hperm.mem_iff.mpr List.mem_cons_self) h
    exact (List.nodup_cons.mp hnodup).1 (heq ▸ hn)
  refine ⟨apart node a (without.slotsOf a), fun chunk hmoves => ?_⟩
  have hchosen : a.device ∈ full.replicasFor (apart node a (without.slotsOf a)) owner chunk count := by
    refine (full.mem_replicasFor _ owner chunk (hmem ha) _).mpr ?_
    rwa [place_apart_first owner chunk (hmem ha) howner hfewer]
  have hkept := hmoves.2.1 a.device hchosen (hnode a ha)
  have hplace := (without.mem_replicasFor _ owner chunk ha _).mp hkept
  have hlast := place_apart_last owner chunk ha howner hnode
  omega

/-- **What one node more or less moves.** For each count, its own share only, for every chunk and
whatever the hashes are, if the slots of the others stay, or the count is met by the owner's own
devices, or takes in all the other nodes; and only then. Every answer has distinct devices, as many
as asked for or as there are, the owner's own before all others. -/
theorem replicas_move {nodes rest : List StorageNode} (hperm : nodes.Perm (node :: rest))
    (hfull : new nodes = .ok full) (hrest : new rest = .ok without) :
    (∀ count, (∀ hash chunk, Ranking.Moves node.device (without.replicasFor hash owner chunk count)
        (full.replicasFor hash owner chunk count)) ↔ Steady without full owner count) ∧
      ∀ hash chunk count, (full.replicasFor hash owner chunk count).Nodup ∧
        (full.replicasFor hash owner chunk count).length = min count full.nodes.length ∧
        ∃ own others, full.replicasFor hash owner chunk count = own ++ others ∧
          (∀ device ∈ own, ∃ node ∈ full.nodes, node.device = device ∧ node.owner = owner) ∧
          (∀ device ∈ others, ∃ node ∈ full.nodes, node.device = device ∧ node.owner ≠ owner) ∧
          (others ≠ [] → ∀ node ∈ full.nodes, node.owner = owner → node.device ∈ own) := by
  have hnodes := perm_of_new hperm hfull hrest
  refine ⟨fun count => ⟨fun hmoves => ?_, fun hsteady hash chunk => ?_⟩,
    fun hash => full.replicasFor_spec hash owner⟩
  · by_contra hsteady
    obtain ⟨hash, hmoved⟩ := moved_of_not_steady owner hnodes hsteady
    exact hmoved 0 (hmoves hash 0)
  · exact moves_of_kept owner hash chunk count hnodes
      fun other hother => kept_of_steady owner hash chunk hnodes hsteady hother

end

/-- The device or id of 32 equal bytes. -/
def bytesId (b : ℕ) : Id := Fin.ofNat _ (Nat.ofDigits 256 (List.replicate 32 b))

/-- BLAKE3 under the placement domain, at the slots that count below. -/
def digests : SlotHash := fun device slot _ _ =>
  if device = bytesId 1 then 0x4c3a9daa14fc6c20c7e8bf96480d676bc0213e90ddd4c4b4692317d3853a04d7
  else if device = bytesId 2 then
    if slot = 0 then 0x61d4498e1df55ac1f920b31cbf7b29d11401007fbb203787431d1b9077a2be1e
    else 0x8c218060f70165d44318d6f65e5619a3e0a88cb5dd9f82e01945bbec321e144b
  else if slot = 0 then 0x5ad642b317ccfac5a4b1f40f5653af1fea2996a4b0da416cf65540b426b73382
  else 0xcc4d1b3629f8e3af67250f45fca41113625da1e763e3584e0764d07672f847ab

/-- **A chunk moves between two nodes that were there all the time.** With a third that pledges
half of what they do they have two slots each, without it one, and the third was not chosen. -/
theorem replicas_move_apart :
    (new [⟨bytesId 1, bytesId 11, 1⟩, ⟨bytesId 2, bytesId 12, 2⟩, ⟨bytesId 3, bytesId 13, 2⟩]).map
        (·.replicasFor digests (bytesId 9) (bytesId 6) 1) = .ok [bytesId 3] ∧
      (new [⟨bytesId 2, bytesId 12, 2⟩, ⟨bytesId 3, bytesId 13, 2⟩]).map
        (·.replicasFor digests (bytesId 9) (bytesId 6) 1) = .ok [bytesId 2] := by
  decide +kernel

/-- A node with as small a pledge as another may come and go. -/
theorem replicas_move_equal : ∃ without full, new [⟨2, 12, 5⟩, ⟨3, 13, 7⟩] = .ok without ∧
    new [⟨1, 11, 5⟩, ⟨2, 12, 5⟩, ⟨3, 13, 7⟩] = .ok full ∧
      Ranking.Moves 1 (without.replicasFor digests 9 6 1) (full.replicasFor digests 9 6 1) := by
  have hok : ((new [⟨2, 12, 5⟩, ⟨3, 13, 7⟩]).map fun _ => 0) = .ok 0 ∧
      ((new [⟨1, 11, 5⟩, ⟨2, 12, 5⟩, ⟨3, 13, 7⟩]).map fun _ => 0) = .ok 0 := by decide +kernel
  cases hrest : new [⟨2, 12, 5⟩, ⟨3, 13, 7⟩] with
  | error e =>
    rw [hrest] at hok
    cases hok.1
  | ok without =>
    cases hfull : new [⟨1, 11, 5⟩, ⟨2, 12, 5⟩, ⟨3, 13, 7⟩] with
    | error e =>
      rw [hfull] at hok
      cases hok.2
    | ok full =>
      refine ⟨without, full, rfl, rfl,
        ((replicas_move 9 (List.Perm.refl _) hfull hrest).1 1).mpr ?_ digests 6⟩
      have hsmall : smallestPledge full.nodes = 5 ∧ smallestPledge without.nodes = 5 := by
        rw [nodes_of_new hfull, nodes_of_new hrest]
        decide +kernel
      refine Or.inl fun other hother _ => ?_
      have hmem : other ∈ full.nodes := (perm_of_new (List.Perm.refl _) hfull hrest).mem_iff.mpr
        (List.mem_cons_of_mem _ hother)
      rw [slotsFor_eq _ hmem, slotsFor_eq _ hother, slotsOf, slotsOf, hsmall.1, hsmall.2]

end NodeSet

end Itsanas
