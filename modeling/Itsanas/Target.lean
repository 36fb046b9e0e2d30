/-
# When a chunk has enough copies

`target.rs` and `release.rs` of `itsanas-placement`: how a chunk stands with the copies it
has, and which of them a full host may drop. A chunk is safe with copies in enough households
and if the chance that no copy is there is small.
-/
import Itsanas.Oplog
import Itsanas.Uptime
import Itsanas.Lib.Table

namespace Itsanas

/-- The seventeen bytes of a network, in their order. -/
abbrev Network := Fin (2 ^ 136)

/-- What a chunk should reach. -/
structure Goal where
  accounts : ℕ
  missPpm : ℕ
  cap : ℕ
  deriving DecidableEq

def Goal.standard : Goal := ⟨2, 10000, 12⟩

/-- Whose a holder is. All unknown devices are one account. -/
inductive Account
  | known (user : UserId)
  | unknown
  deriving DecidableEq

/-- One device with a copy. -/
structure Holding where
  device : DeviceId
  account : Account
  own : Bool
  uptime : Option Uptime
  proven : Bool
  recent : Bool
  network : Option Network

/-- How a chunk stands. -/
structure Target.Verdict where
  durable : Bool
  available : Bool
  missPpm : ℕ
  accounts : ℕ
  remote : ℕ
  capped : Bool
  deriving DecidableEq

def Target.Verdict.satisfied (v : Target.Verdict) : Bool := v.durable && v.available

/-! ### Households -/

/-- The root above `at'`, halving the path on the way. Every entry is passed at most once, so
the length of the list is fuel enough. -/
def unionRoot : ℕ → List ℕ → ℕ → List ℕ × ℕ
  | 0, parent, at' => (parent, at')
  | fuel + 1, parent, at' =>
    let above := parent.getD at' at'
    if above = at' then (parent, at')
    else
      let next := parent.getD above above
      unionRoot fuel (parent.set at' next) next

/-- Holders that go down together. -/
def Holding.shares (a b : Holding) : Bool :=
  a.account = b.account ∨ a.network.isSome ∧ a.network = b.network

/-- Put `i` and `j` in one household if they share something. -/
def joinHouseholds (proven : List Holding) (parent : List ℕ) (i j : ℕ) : List ℕ :=
  match proven[i]?, proven[j]? with
  | some a, some b =>
    if a.shares b then
      let (parent, ra) := unionRoot parent.length parent i
      let (parent, rb) := unionRoot parent.length parent j
      parent.set ra rb
    else parent
  | _, _ => parent

def joinAll (proven : List Holding) : List ℕ :=
  (List.range proven.length).foldl (fun parent i =>
    (List.range' (i + 1) (proven.length - (i + 1))).foldl
      (fun parent j => joinHouseholds proven parent i j)
      parent) (List.range proven.length)

/-- The households of some holders: one for each root. -/
def households (proven : List Holding) : ℕ :=
  ((List.range proven.length).foldl (fun (acc : List ℕ × ℕ) i =>
    let (parent, root) := unionRoot acc.1.length acc.1 i
    (parent, if root = i then acc.2 + 1 else acc.2)) (joinAll proven, 0)).2

/-! ### Assessment -/

/-- The last of those with the highest key. -/
def maxByKey {α : Type*} (key : α → ℕ) : List α → Option α :=
  List.foldl (fun best x => if best.any fun b => key x < key b then best else some x) none

/-- A network is as good as its best member. -/
def bestRing (members : List (Option Uptime)) (nowHour : ℕ) : Option Uptime :=
  maxByKey (fun ring => (ring.availability nowHour (lostAfterHours (some ring))).getD 0)
    (members.filterMap id)

def unitOf (uptime : Option Uptime) : UptimeUnit := ⟨uptime, lostAfterHours uptime⟩

/-- The rings of the holders on each network. -/
def byNetwork (proven : List Holding) : Table Network (List (Option Uptime)) :=
  proven.foldl (fun t holding =>
    holding.network.elim t fun network =>
      t.insert network ((t[network]?).getD [] ++ [holding.uptime])) ∅

/-- What counts for availability: the proven holders outside every network, each network, and
this account's devices as one. -/
def unitsOf (holdings : List Holding) (nowHour : ℕ) : List UptimeUnit :=
  let proven := holdings.filter fun holding => !holding.own && holding.proven
  let alone := (proven.filter fun holding => holding.network.isNone).map Holding.uptime
  let unions := (byNetwork proven).toList.map fun r => bestRing r.2 nowHour
  let own := holdings.filter Holding.own
  (alone.map unitOf ++ unions.map unitOf) ++
    if own.isEmpty then [] else [unitOf (Uptime.union (own.filterMap Holding.uptime))]

/-- How a chunk with these copies stands, this node left out. -/
def assess (holdings : List Holding) (goal : Goal) (nowHour : ℕ) : Target.Verdict :=
  let proven := holdings.filter fun holding => !holding.own && holding.proven
  let accounts := households proven
  let miss := missPpm (unitsOf holdings nowHour) nowHour
  let remote := holdings.countP fun holding => !holding.own
  { durable := goal.accounts ≤ accounts ∧ proven.any Holding.recent
    available := miss ≤ goal.missPpm
    missPpm := miss
    accounts := accounts
    remote := remote
    capped := goal.cap ≤ remote }

/-! ### Release -/

/-- Whether what is left without `candidate` is safe with a margin. -/
def mayRelease (strict : List Holding) (goal : Goal) (releasers nowHour : ℕ)
    (candidate : DeviceId) : Bool :=
  let verdict := assess (strict.filter fun holding => holding.device ≠ candidate) goal nowHour
  (strict.any fun holding => !holding.own && holding.device = candidate) ∧
    goal.accounts + max releasers 1 ≤ verdict.accounts ∧ verdict.missPpm ≤ goal.missPpm / 4

/-- The copy to drop: the lowest in `order` that may go. -/
def releaseHolder (strict : List Holding) (order : List DeviceId) (goal : Goal)
    (releasers nowHour : ℕ) :
    Option DeviceId :=
  order.reverse.find? (mayRelease strict goal releasers nowHour)

/-- Without the copy that goes, the chunk is at its goal. -/
theorem releaseHolder_spec {strict : List Holding} {order : List DeviceId} {goal : Goal}
    {releasers nowHour : ℕ} {device : DeviceId}
    (h : releaseHolder strict order goal releasers nowHour = some device) :
    let verdict := assess (strict.filter fun holding => holding.device ≠ device) goal nowHour
    goal.accounts + max releasers 1 ≤ verdict.accounts ∧ verdict.missPpm ≤ goal.missPpm / 4 := by
  have hmay := List.find?_some h
  rw [mayRelease, decide_eq_true_eq] at hmay
  exact hmay.2

end Itsanas
