/-
# The relay desk

A machine that nobody can reach parks a connection at a relay (`itsanas-net/src/relay.rs`); a
caller asks the relay to splice, and the relay hands the caller's connection to the park. Few
splices are carried at once: a place is counted when a splice is reserved, in the caller's
session, and given back by whoever sees the handoff last, mostly the session of the park.

Sessions run side by side, as `PeerServer::relay` of `transport.rs` runs them. A step of the
model is what happens between two moments at which another session can get in: the desk's lock
is held for a whole park, for a whole ticket's drop, and by `reserve` from its count to its
verdict, where other sessions still give back places. Only the channel is coarser: a `try_recv`
that takes a handoff, or a `try_send` that fails, is one step with the `fetch_sub` that follows it,
and a session that looks between the two would find the place still counted.

Two paths give no place back. A caller that is gone when it is told yes drops the reservation,
which has no drop of its own; and a park that has looked into its channel for the last time
still takes a handoff until the channel itself is dropped (`World.place_lost`). In every run
without these the count is the number of splices under way, at any moment
(`World.places_counted`).
-/
import Itsanas.Version
import Itsanas.Lib.Table

namespace Itsanas

namespace Relay

def maxParkedOwn : ℕ := 8

def maxParkedHosted : ℕ := 8

def maxParkedPerAccount : ℕ := 2

def maxSplicesPerPool : ℕ := 2

/-- Which pool a park is counted in. -/
inductive Class
  | own
  | hosted (account : UserId)
  deriving DecidableEq

inductive Pool
  | own
  | hosted
  deriving DecidableEq

def pool : Class → Pool
  | .own => .own
  | .hosted _ => .hosted

structure Parked where
  class' : Class
  ticket : ℕ
  /-- The session that holds the other end of the channel. -/
  hand : ℕ

/-- Who is parked, and how many tickets were given out. -/
structure Desk where
  parked : Table DeviceId Parked
  tickets : ℕ

namespace Desk

def inPool (d : Desk) (wanted : Class → Bool) : ℕ :=
  d.parked.total fun p => if wanted p.class' then 1 else 0

def isHosted : Class → Bool
  | .own => false
  | .hosted _ => true

/-- Whether the caps leave a place. -/
def room (d : Desk) : Class → Bool
  | .own => d.inPool (· = .own) < maxParkedOwn
  | .hosted account =>
    d.inPool isHosted < maxParkedHosted ∧ d.inPool (· = .hosted account) < maxParkedPerAccount

/-- Take a park for `device`. One that parks again loses its old park, whether or not there is
room. -/
def park (d : Desk) (device : DeviceId) (class' : Class) (hand : ℕ) : Desk × Option ℕ :=
  let freed : Desk := { d with parked := d.parked.erase device }
  if freed.room class' then
    let ticket := d.tickets % 2 ^ 64
    (⟨freed.parked.insert device ⟨class', ticket, hand⟩, d.tickets + 1⟩, some ticket)
  else (freed, none)

/-- Give up a park, if it is still this one. -/
def leave (d : Desk) (device : DeviceId) (ticket : ℕ) : Desk :=
  if (d.parked[device]?).any (·.ticket = ticket) then { d with parked := d.parked.erase device } else d

end Desk

/-! ### Sessions -/

/-- Where a session is. -/
inductive Phase
  | asksPark
  /-- Waits for a caller. -/
  | parks (ticket : ℕ)
  /-- Copies bytes for a caller. -/
  | carries (ticket : ℕ)
  /-- Gives up its ticket. -/
  | leaves (ticket : ℕ)
  /-- Looks into its channel for handoffs that came meanwhile. -/
  | drains
  /-- Found none; the channel is still there. -/
  | drained
  | asksSplice (to' : DeviceId)
  /-- Has counted the splice, and holds the lock. -/
  | checks (to' : DeviceId) (before : ℕ)
  /-- Tells its caller yes. -/
  | reserved (park : ℕ)
  | hands (park : ℕ)
  | ended
  deriving DecidableEq

/-- The session has the receiving end of a channel. -/
def Phase.receives : Phase → Bool
  | .parks _ | .carries _ | .leaves _ | .drains | .drained => true
  | _ => false

/-- The session looks into the channel again before it ends. -/
def Phase.listens : Phase → Bool
  | .parks _ | .carries _ | .leaves _ | .drains => true
  | _ => false

variable {phase : Phase}

theorem Phase.listens_of_receives (h : phase.receives = true) (hdry : phase ≠ .drained) :
    phase.listens = true := by
  cases phase <;> simp_all [Phase.receives, Phase.listens]

/-- A splice is reserved and not yet handed, or being carried. -/
def Phase.busy : Phase → Bool
  | .reserved _ | .hands _ | .carries _ => true
  | _ => false

/-- A splice is counted inside `reserve`, which may yet refuse. -/
def Phase.counting : Phase → Bool
  | .checks _ _ => true
  | _ => false

theorem Phase.counting_of_receives (h : phase.receives = true) : phase.counting = false := by
  cases phase <;> simp_all [Phase.receives, Phase.counting]

structure Session where
  peer : DeviceId
  class' : Class
  phase : Phase
  /-- A caller handed over and not yet taken. -/
  inbox : Option DeviceId

namespace Session

/-- One place, in the session's own pool. -/
def one (s : Session) (p : Pool) : ℕ := if pool s.class' = p then 1 else 0

/-- The splices of a pool a session accounts for: reserved and not handed, carried, or handed to
it and not taken. -/
def places (s : Session) (p : Pool) : ℕ :=
  (if s.phase.busy then s.one p else 0) + if s.inbox.isSome then s.one p else 0

/-- With the one it is counting inside `reserve`. -/
def held (s : Session) (p : Pool) : ℕ := s.places p + if s.phase.counting then s.one p else 0

end Session

structure World where
  desk : Desk
  /-- The counters, of 64 bits. -/
  splices : Pool → ℕ
  /-- The session in `reserve`, with the desk's lock. -/
  reserving : Option ℕ
  sessions : Table ℕ Session

namespace World

def start : World := ⟨⟨∅, 0⟩, fun _ => 0, none, ∅⟩

/-- Add one to a counter. -/
def fetchAdd (w : World) (p : Pool) : World :=
  { w with splices := Function.update w.splices p ((w.splices p + 1) % 2 ^ 64) }

/-- Take one off a counter. -/
def fetchSub (w : World) (p : Pool) : World :=
  { w with splices := Function.update w.splices p ((w.splices p + (2 ^ 64 - 1)) % 2 ^ 64) }

def put (w : World) (i : ℕ) (s : Session) : World := { w with sessions := w.sessions.insert i s }

/-- How the connection does: it goes on, or something fails or closes. -/
inductive Luck
  | goesOn
  | fails
  deriving DecidableEq

/-- Hand a caller over, or give its place back. -/
def hand (w : World) (s : Session) (park : ℕ) : World :=
  match w.sessions[park]? with
  | some t =>
    if t.phase.receives ∧ t.inbox = none then w.put park { t with inbox := some s.peer }
    else w.fetchSub (pool s.class')
  | none => w.fetchSub (pool s.class')

/-- One step of session `i`, which is at `s`. -/
def act (w : World) (i : ℕ) (s : Session) (luck : Luck) : World :=
  match s.phase with
  | .asksPark =>
    if w.reserving.isSome then w
    else
      match w.desk.park s.peer s.class' i with
      | (desk, some ticket) => { w with desk := desk }.put i { s with phase := .parks ticket }
      | (desk, none) => { w with desk := desk }.put i { s with phase := .ended }
  | .parks ticket =>
    if luck = .fails then w.put i { s with phase := .leaves ticket }
    else if s.inbox.isSome then w.put i { s with phase := .carries ticket, inbox := none }
    else w
  | .carries ticket =>
    if luck = .fails then (w.put i { s with phase := .leaves ticket }).fetchSub (pool s.class') else w
  | .leaves ticket =>
    if w.reserving.isSome then w
    else { w with desk := w.desk.leave s.peer ticket }.put i { s with phase := .drains }
  | .drains =>
    if s.inbox.isSome then (w.put i { s with inbox := none }).fetchSub (pool s.class')
    else w.put i { s with phase := .drained }
  | .drained => w.put i { s with phase := .ended, inbox := none }
  | .asksSplice to' =>
    if w.reserving.isSome then w
    else if to' ≠ s.peer ∧ (w.desk.parked[to']?).any (·.class' = s.class') then
      { (w.put i { s with phase := .checks to' (w.splices (pool s.class')) }).fetchAdd (pool s.class') with
        reserving := some i }
    else w.put i { s with phase := .ended }
  | .checks to' before =>
    let unlocked : World := { w with reserving := none }
    if maxSplicesPerPool ≤ before then (unlocked.put i { s with phase := .ended }).fetchSub (pool s.class')
    else
      match w.desk.parked[to']? with
      | some row =>
        { unlocked with desk := { w.desk with parked := w.desk.parked.erase to' } }.put i
          { s with phase := .reserved row.hand }
      | none => unlocked.put i { s with phase := .ended }
  | .reserved park =>
    if luck = .fails then w.put i { s with phase := .ended } else w.put i { s with phase := .hands park }
  | .hands park => (w.put i { s with phase := .ended }).hand s park
  | .ended => w

inductive Move
  /-- A session for a device that asks for a park, or for a splice to another. -/
  | starts (i : ℕ) (peer : DeviceId) (class' : Class) (to' : Option DeviceId)
  | acts (i : ℕ) (luck : Luck)

def step (w : World) : Move → World
  | .starts i peer class' to' =>
    if (w.sessions[i]?).isSome then w
    else w.put i ⟨peer, class', to'.elim .asksPark .asksSplice, none⟩
  | .acts i luck =>
    match w.sessions[i]? with
    | some s => w.act i s luck
    | none => w

def run (w : World) (moves : List Move) : World := moves.foldl step w

/-- How many splices of a pool are under way: reserved and not handed, handed and not taken, or
carried. -/
def places (w : World) (p : Pool) : ℕ := w.sessions.total fun s => s.places p

/-- A caller that was let in is still there to be told, and no handoff reaches a park between
its last look into the channel and its end. -/
def careful (w : World) : Move → Bool
  | .acts i luck =>
    (w.sessions[i]?).all fun s =>
      match s.phase with
      | .reserved _ => luck = .goesOn
      | .hands park => (w.sessions[park]?).all (·.phase ≠ .drained)
      | _ => true
  | _ => true

def CarefulRun (w : World) : List Move → Prop
  | [] => True
  | move :: rest => w.careful move = true ∧ (w.step move).CarefulRun rest

instance decidableCarefulRun : (w : World) → (moves : List Move) → Decidable (w.CarefulRun moves)
  | _, [] => isTrue trivial
  | w, move :: rest => @instDecidableAnd _ _ _ (decidableCarefulRun (w.step move) rest)

end World

/-! ### The caps on parks -/

structure Caps (d : Desk) : Prop where
  own : d.inPool (· = .own) ≤ maxParkedOwn
  hosted : d.inPool Desk.isHosted ≤ maxParkedHosted
  account : ∀ account, d.inPool (· = .hosted account) ≤ maxParkedPerAccount

theorem inPool_erase (d : Desk) (device : DeviceId) (wanted : Class → Bool) :
    Desk.inPool { d with parked := d.parked.erase device } wanted ≤ d.inPool wanted := by
  have htotal := Table.total_erase (fun p : Parked => if wanted p.class' then 1 else 0) d.parked device
  unfold Desk.inPool
  dsimp only
  omega

theorem inPool_insert (d : Desk) (device : DeviceId) (row : Parked) (tickets : ℕ)
    (wanted : Class → Bool) :
    Desk.inPool ⟨(d.parked.erase device).insert device row, tickets⟩ wanted =
      Desk.inPool { d with parked := d.parked.erase device } wanted +
        if wanted row.class' then 1 else 0 := by
  have htotal := Table.total_insert (fun p : Parked => if wanted p.class' then 1 else 0)
    (d.parked.erase device) device row
  rw [Table.getElem?_erase_self', Option.elim_none, Nat.add_zero] at htotal
  exact htotal

variable {d : Desk}

theorem Caps.erase (h : Caps d) (device : DeviceId) :
    Caps { d with parked := d.parked.erase device } :=
  ⟨(inPool_erase d device _).trans h.own, (inPool_erase d device _).trans h.hosted,
    fun account => (inPool_erase d device _).trans (h.account account)⟩

/-- **The caps hold** whoever parks. -/
theorem Caps.park (h : Caps d) (device : DeviceId) (class' : Class) (hand : ℕ) :
    Caps (d.park device class' hand).1 := by
  have herase := h.erase device
  unfold Desk.park
  dsimp only
  by_cases hroom : Desk.room { d with parked := d.parked.erase device } class' = true
  · rw [if_pos hroom]
    cases class' with
    | own =>
      have hown := of_decide_eq_true hroom
      refine ⟨?_, ?_, fun account => ?_⟩
      · rw [inPool_insert]
        exact hown
      · rw [inPool_insert]
        exact herase.hosted
      · rw [inPool_insert]
        exact herase.account account
    | hosted owner =>
      obtain ⟨hhosted, howner⟩ := of_decide_eq_true hroom
      refine ⟨?_, ?_, fun account => ?_⟩
      · rw [inPool_insert]
        exact herase.own
      · rw [inPool_insert]
        exact hhosted
      · rw [inPool_insert]
        by_cases heq : owner = account
        · subst heq
          rw [if_pos (decide_eq_true rfl)]
          exact howner
        · rw [if_neg (by simpa using heq)]
          exact herase.account account
  · rw [if_neg hroom]
    exact herase

variable {row : Parked}

theorem mem_erase {parked : Table DeviceId Parked} {device to' : DeviceId}
    (h : (parked.erase device)[to']? = some row) : parked[to']? = some row := by
  rw [Table.getElem?_erase'] at h
  split_ifs at h
  exact h

variable {to' : DeviceId}

/-- A row on the desk after a park is the new one, or was there. -/
theorem mem_park {device : DeviceId} {class' : Class} {hand : ℕ}
    (h : (d.park device class' hand).1.parked[to']? = some row) :
    d.parked[to']? = some row ∨ row.class' = class' ∧ row.hand = hand := by
  unfold Desk.park at h
  dsimp only at h
  split_ifs at h
  · rw [Table.getElem?_insert'] at h
    split_ifs at h
    · cases h
      exact .inr ⟨rfl, rfl⟩
    · exact .inl (mem_erase h)
  · exact .inl (mem_erase h)

theorem Caps.leave (h : Caps d) (device : DeviceId) (ticket : ℕ) :
    Caps (d.leave device ticket) := by
  unfold Desk.leave
  split_ifs
  · exact h.erase device
  · exact h

theorem mem_leave {device : DeviceId} {ticket : ℕ}
    (h : (d.leave device ticket).parked[to']? = some row) : d.parked[to']? = some row := by
  unfold Desk.leave at h
  split_ifs at h
  · exact mem_erase h
  · exact h

namespace World

/-! ### Counting -/

variable {w : World} {i : ℕ} {s s' : Session}

/-- The splices a pool's counter should say, those being reserved included. -/
def held (w : World) (p : Pool) : ℕ := w.sessions.total fun s => s.held p

theorem held_put (hs : w.sessions[i]? = some s) (s' : Session) (p : Pool) :
    (w.put i s').held p + s.held p = w.held p + s'.held p := by
  have htotal := Table.total_insert (fun s : Session => s.held p) w.sessions i s'
  rw [hs, Option.elim_some] at htotal
  exact htotal

/-- What the phase of a session says about the others. -/
structure Fine (w : World) (i : ℕ) (s : Session) : Prop where
  /-- A splice is for a park of the caller's own class. -/
  target : ∀ park, s.phase = .reserved park ∨ s.phase = .hands park →
    ∃ t, w.sessions[park]? = some t ∧ t.class' = s.class'
  dry : s.phase.listens = false → s.inbox = none
  locked : ∀ to' before, s.phase = .checks to' before → w.reserving = some i

/-- What a counter may be at most: in `reserve` one more than was found there. -/
def AtMost (w : World) (p : Pool) : Prop :=
  match w.reserving with
  | none => w.splices p ≤ maxSplicesPerPool
  | some i => ∃ s to' before, w.sessions[i]? = some s ∧ s.phase = .checks to' before ∧
      before ≤ maxSplicesPerPool ∧ (w.desk.parked[to']?).any (·.class' = s.class') ∧
      w.splices p ≤ if pool s.class' = p then before + 1 else maxSplicesPerPool

/-- What holds in every state. In the middle of a step the counters may be ahead of the
sessions by `extra`. -/
structure Inv (w : World) (extra : Pool → ℕ) : Prop where
  counted : ∀ p, w.splices p = w.held p + extra p
  bounded : ∀ p, w.AtMost p
  fine : ∀ i s, w.sessions[i]? = some s → w.Fine i s
  rows : ∀ (to' : DeviceId) row, w.desk.parked[to']? = some row →
    ∃ t, w.sessions[row.hand]? = some t ∧ t.class' = row.class'
  caps : Caps w.desk

/-- Between two steps they are not. -/
abbrev even : Pool → ℕ := fun _ => 0

theorem Inv.start : start.Inv even where
  counted _ := rfl
  bounded _ := Nat.zero_le _
  fine _ _ h := by cases h
  rows _ _ h := by cases h
  caps := ⟨Nat.zero_le _, Nat.zero_le _, fun _ => Nat.zero_le _⟩

variable {extra extra' : Pool → ℕ}

theorem Inv.counted_even (h : w.Inv even) (p : Pool) : w.splices p = w.held p := h.counted p

variable {p : Pool}

theorem AtMost.small (h : w.AtMost p) : w.splices p ≤ maxSplicesPerPool + 1 := by
  unfold AtMost at h
  split at h
  · omega
  · obtain ⟨_, _, before, _, _, hbefore, _, hle⟩ := h
    split_ifs at hle <;> omega

/-- Only the session in `reserve` holds the lock. -/
theorem AtMost.not_reserving (h : w.AtMost p) (hs : w.sessions[i]? = some s)
    (hcounting : s.phase.counting = false) : w.reserving ≠ some i := by
  intro hreserving
  unfold AtMost at h
  rw [hreserving] at h
  obtain ⟨s₁, to', before, hs₁, hchecks, _⟩ := h
  rw [hs] at hs₁
  cases hs₁
  rw [hchecks] at hcounting
  cases hcounting

variable {w' : World}

/-- A session in `reserve` keeps its bound while others move and counters fall. -/
theorem AtMost.mono (h : w.AtMost p) (hreserving : w'.reserving = w.reserving)
    (hsessions : ∀ j, w.reserving = some j → w'.sessions[j]? = w.sessions[j]?)
    (hdesk : w.reserving.isSome → w'.desk = w.desk)
    (hle : w'.splices p ≤ w.splices p) : w'.AtMost p := by
  unfold AtMost at h ⊢
  rw [hreserving]
  cases hw : w.reserving with
  | none =>
    rw [hw] at h
    exact hle.trans h
  | some j =>
    rw [hw] at h
    obtain ⟨s₁, to', before, hs₁, hchecks, hbefore, hpark, hbound⟩ := h
    refine ⟨s₁, to', before, (hsessions j hw).trans hs₁, hchecks, hbefore, ?_, hle.trans hbound⟩
    rw [hdesk (by rw [hw]; rfl)]
    exact hpark

variable {j : ℕ}

/-- Sessions keep their class. -/
theorem exists_put (hs : w.sessions[i]? = some s) (hclass : s'.class' = s.class') {class' : Class}
    (h : ∃ t, w.sessions[j]? = some t ∧ t.class' = class') :
    ∃ t, (w.put i s').sessions[j]? = some t ∧ t.class' = class' := by
  obtain ⟨t, ht, htclass⟩ := h
  by_cases hij : i = j
  · subst hij
    rw [hs] at ht
    cases ht
    exact ⟨s', Table.getElem?_insert_self' _ _ _, hclass.trans htclass⟩
  · exact ⟨t, (Table.getElem?_insert_ne _ _ hij).trans ht, htclass⟩

/-- The other sessions are as fine as they were. -/
theorem Fine.put {t : Session} (h : w.Fine j t) (hs : w.sessions[i]? = some s)
    (hclass : s'.class' = s.class') : (w.put i s').Fine j t :=
  ⟨fun park hpark => exists_put hs hclass (h.target park hpark), h.dry, h.locked⟩

theorem Fine.congr {t : Session} (h : w.Fine j t) (hsessions : w'.sessions = w.sessions)
    (hreserving : w'.reserving = w.reserving) : w'.Fine j t :=
  ⟨hsessions ▸ h.target, h.dry, hreserving ▸ h.locked⟩

/-- **A session moves on**, outside `reserve`. -/
theorem Inv.put (h : w.Inv extra) (hs : w.sessions[i]? = some s) (hclass : s'.class' = s.class')
    (hcounting : s.phase.counting = false) (hfine : w.Fine i s')
    (hheld : ∀ p, extra' p + s'.held p = extra p + s.held p) : (w.put i s').Inv extra' where
  counted p := by
    have hput := held_put hs s' p
    have hcounted := h.counted p
    have hp := hheld p
    show w.splices p = _
    omega
  bounded p := by
    refine (h.bounded p).mono rfl (fun j hj => Table.getElem?_insert_ne _ _ ?_) (fun _ => rfl) le_rfl
    rintro rfl
    exact (h.bounded p).not_reserving hs hcounting hj
  fine j t ht := by
    by_cases hij : i = j
    · subst hij
      change (w.sessions.insert i s')[i]? = some t at ht
      rw [Table.getElem?_insert_self'] at ht
      cases ht
      exact hfine.put hs hclass
    · change (w.sessions.insert i s')[j]? = some t at ht
      rw [Table.getElem?_insert_ne _ _ hij] at ht
      exact (h.fine j t ht).put hs hclass
  rows to' row hrow := exists_put hs hclass (h.rows to' row hrow)
  caps := h.caps

/-- **A place is given back**: the counter was at least one. -/
theorem Inv.fetchSub (h : w.Inv extra) (hextra : ∀ q, extra q = extra' q + if p = q then 1 else 0) :
    (w.fetchSub p).Inv extra' := by
  have hp := hextra p
  rw [if_pos rfl] at hp
  have hcounted := h.counted p
  have hsmall := (h.bounded p).small
  have hsub : (w.fetchSub p).splices p = w.splices p - 1 := by
    rw [World.fetchSub]
    dsimp only
    rw [Function.update_self]
    unfold maxSplicesPerPool at hsmall
    omega
  have hother : ∀ q, p ≠ q → (w.fetchSub p).splices q = w.splices q :=
    fun q hq => Function.update_of_ne (Ne.symm hq) _ _
  refine ⟨fun q => ?_, fun q => ?_, fun j t ht => (h.fine j t ht).congr rfl rfl, h.rows, h.caps⟩
  · have hheld : (w.fetchSub p).held q = w.held q := rfl
    have hq := h.counted q
    have he := hextra q
    by_cases heq : p = q
    · subst heq
      rw [hsub]
      omega
    · rw [if_neg heq] at he
      rw [hother q heq]
      omega
  · refine (h.bounded q).mono rfl (fun _ _ => rfl) (fun _ => rfl) ?_
    by_cases heq : p = q
    · subst heq
      rw [hsub]
      omega
    · rw [hother q heq]

/-- **The desk changes** while nobody is in `reserve`. -/
theorem Inv.setDesk (h : w.Inv extra) (hfree : w.reserving = none) {desk : Desk} (hcaps : Caps desk)
    (hrows : ∀ (to' : DeviceId) row, desk.parked[to']? = some row →
      ∃ t, w.sessions[row.hand]? = some t ∧ t.class' = row.class') :
    { w with desk := desk }.Inv extra :=
  ⟨h.counted,
    fun p => (h.bounded p).mono rfl (fun _ _ => rfl)
      (fun hsome => by rw [hfree] at hsome; cases hsome) le_rfl,
    fun j t ht => (h.fine j t ht).congr rfl rfl, hrows, hcaps⟩

/-- A session at a phase that says nothing about others. -/
theorem fine_of (hbusy : s.phase.receives = true ∨ s.phase = .ended)
    (hdry : s.phase.listens = false → s.inbox = none) :
    w.Fine i s := by
  refine ⟨fun park hpark => ?_, hdry, fun to' before hchecks => ?_⟩
  · rcases hpark with hpark | hpark <;> rw [hpark] at hbusy <;> simp [Phase.receives] at hbusy
  · rw [hchecks] at hbusy
    simp [Phase.receives] at hbusy

/-- The phase changes, and what the session accounts for does not. -/
theorem Inv.moves (h : w.Inv extra) (hs : w.sessions[i]? = some s)
    (hcounting : s.phase.counting = false) (hcounting' : phase.counting = false)
    (hbusy : phase.busy = s.phase.busy) (hfine : w.Fine i { s with phase := phase }) :
    (w.put i { s with phase := phase }).Inv extra := by
  refine h.put hs rfl hcounting hfine fun p => ?_
  have hone : Session.one { s with phase := phase } p = s.one p := rfl
  simp only [Session.held, Session.places, hbusy, hcounting, hcounting', hone]

/-- The session gives up one place. -/
theorem Inv.gives (h : w.Inv even) (hs : w.sessions[i]? = some s) (hclass : s'.class' = s.class')
    (hcounting : s.phase.counting = false) (hfine : w.Fine i s')
    (hheld : ∀ p, s'.held p + s.one p = s.held p) :
    ((w.put i s').fetchSub (pool s.class')).Inv even := by
  have hput : (w.put i s').Inv s.one := h.put hs hclass hcounting hfine fun p => by
    have hp := hheld p
    show s.one p + s'.held p = 0 + s.held p
    omega
  exact hput.fetchSub fun q => (Nat.zero_add _).symm

theorem AtMost.of_free (h : w.AtMost p) (hfree : w.reserving = none) :
    w.splices p ≤ maxSplicesPerPool := by
  unfold AtMost at h
  rw [hfree] at h
  exact h

variable {before : ℕ}

theorem AtMost.of_locked (h : w.AtMost p) (hs : w.sessions[i]? = some s)
    (hphase : s.phase = .checks to' before) (hlock : w.reserving = some i) :
    before ≤ maxSplicesPerPool ∧ (w.desk.parked[to']?).any (·.class' = s.class') ∧
      w.splices p ≤ if pool s.class' = p then before + 1 else maxSplicesPerPool := by
  unfold AtMost at h
  rw [hlock] at h
  obtain ⟨s₁, to₁, before₁, hs₁, hphase₁, hrest⟩ := h
  rw [hs] at hs₁
  cases hs₁
  rw [hphase] at hphase₁
  cases hphase₁
  exact hrest

/-- **Into `reserve`**: the splice is counted with the lock held. -/
theorem Inv.lock (h : w.Inv even) (hs : w.sessions[i]? = some s) (hfree : w.reserving = none)
    (hphase : s.phase = .asksSplice to') (hpark : (w.desk.parked[to']?).any (·.class' = s.class'))
    (hs' : s' = { s with phase := .checks to' (w.splices (pool s.class')) }) :
    { (w.put i s').fetchAdd (pool s.class') with reserving := some i }.Inv even := by
  have hclass : s'.class' = s.class' := by rw [hs']
  have hle : ∀ p, w.splices p ≤ maxSplicesPerPool := fun p => (h.bounded p).of_free hfree
  have hself : ((w.put i s').fetchAdd (pool s.class')).splices (pool s.class') =
      w.splices (pool s.class') + 1 := by
    have hp := hle (pool s.class')
    unfold maxSplicesPerPool at hp
    refine (Function.update_self _ _ _).trans (?_ : (w.splices (pool s.class') + 1) % 2 ^ 64 = _)
    omega
  have hother : ∀ p, pool s.class' ≠ p → ((w.put i s').fetchAdd (pool s.class')).splices p =
      w.splices p :=
    fun p hp => Function.update_of_ne (Ne.symm hp) _ _
  refine ⟨fun p => ?_, fun p => ?_, fun j t ht => ?_, fun to₁ row hrow => ?_, h.caps⟩
  · have hput := held_put hs s' p
    have hcounted := h.counted_even p
    have hheld : s'.held p = s.held p + s.one p := by
      rw [hs']
      simp [Session.held, Session.places, hphase, Phase.busy, Phase.counting, Session.one]
    show ((w.put i s').fetchAdd (pool s.class')).splices p = (w.put i s').held p + 0
    by_cases hp : pool s.class' = p
    · subst hp
      rw [Session.one, if_pos rfl] at hheld
      rw [hself]
      omega
    · rw [Session.one, if_neg hp] at hheld
      rw [hother p hp]
      omega
  · refine ⟨s', to', w.splices (pool s.class'),
      Table.getElem?_insert_self' _ _ _, by rw [hs'], hle _, hclass ▸ hpark, ?_⟩
    show ((w.put i s').fetchAdd (pool s.class')).splices p ≤ if pool s'.class' = p then _ else _
    rw [hclass]
    split_ifs with hp
    · subst hp
      rw [hself]
    · rw [hother p hp]
      exact hle p
  · change (w.sessions.insert i s')[j]? = some t at ht
    by_cases hij : i = j
    · subst hij
      rw [Table.getElem?_insert_self'] at ht
      cases ht
      subst hs'
      refine ⟨fun park hpark => ?_, fun _ => (h.fine i s hs).dry (by rw [hphase]; rfl), fun _ _ _ =>
        rfl⟩
      rcases hpark with hpark | hpark <;> cases hpark
    · rw [Table.getElem?_insert_ne _ _ hij] at ht
      have hj := h.fine j t ht
      refine ⟨(hj.put hs hclass).target, hj.dry, fun to₁ before hchecks => ?_⟩
      have hlocked := hj.locked to₁ before hchecks
      rw [hfree] at hlocked
      cases hlocked
  · exact exists_put hs hclass (h.rows to₁ row hrow)

/-- **Out of `reserve`**: the lock is given up. -/
theorem Inv.unlock (h : w.Inv even) (hs : w.sessions[i]? = some s) (s' : Session)
    (hphase : s.phase = .checks to' before) (hclass : s'.class' = s.class')
    (htarget : ∀ park, s'.phase = .reserved park ∨ s'.phase = .hands park →
      ∃ t, w.sessions[park]? = some t ∧ t.class' = s'.class')
    (hcounting : s'.phase.counting = false) (hinbox : s'.inbox = none)
    (hsessions : w'.sessions = w.sessions.insert i s') (hreserving : w'.reserving = none)
    (hcaps : Caps w'.desk)
    (hrows : ∀ (to' : DeviceId) row, w'.desk.parked[to']? = some row → w.desk.parked[to']? = some row)
    (hle : ∀ p, w'.splices p ≤ maxSplicesPerPool)
    (hcounted : ∀ p, w'.splices p + s.held p = w.splices p + s'.held p) : w'.Inv even := by
  have hlock := (h.fine i s hs).locked to' before hphase
  have hexists : ∀ {j : ℕ} {class' : Class}, (∃ t, w.sessions[j]? = some t ∧ t.class' = class') →
      ∃ t, w'.sessions[j]? = some t ∧ t.class' = class' :=
        fun ht => hsessions ▸ exists_put hs hclass ht
  refine ⟨fun p => ?_, fun p => ?_, fun j t ht => ?_, fun to₁ row hrow => ?_, hcaps⟩
  · have hput := held_put hs s' p
    have hheld : w'.held p = (w.put i s').held p := by rw [held, hsessions]; rfl
    have hp := h.counted_even p
    have hp' := hcounted p
    rw [hheld]
    show w'.splices p = _ + 0
    omega
  · unfold AtMost
    rw [hreserving]
    exact hle p
  · rw [hsessions] at ht
    by_cases hij : i = j
    · subst hij
      rw [Table.getElem?_insert_self'] at ht
      cases ht
      refine ⟨fun park hpark => hexists (htarget park hpark), fun _ =>
        hinbox, fun to₁ before₁ hchecks => ?_⟩
      rw [hchecks] at hcounting
      cases hcounting
    · rw [Table.getElem?_insert_ne _ _ hij] at ht
      have hj := h.fine j t ht
      refine ⟨fun park hpark => hexists (hj.target park hpark), hj.dry, fun to₁ before₁ hchecks => ?_⟩
      have hlocked := hj.locked to₁ before₁ hchecks
      rw [hlock] at hlocked
      exact absurd (Option.some.inj hlocked) hij
  · exact hexists (h.rows to₁ row (hrows to₁ row hrow))

/-- The verdict of `reserve`. -/
theorem Inv.verdict (h : w.Inv even) (hs : w.sessions[i]? = some s)
    (hphase : s.phase = .checks to' before) (luck : Luck) : (w.act i s luck).Inv even := by
  have hlock := (h.fine i s hs).locked to' before hphase
  have hbound := fun p => (h.bounded p).of_locked hs hphase hlock
  obtain ⟨hbefore, hpark, hself⟩ := hbound (pool s.class')
  rw [if_pos rfl] at hself
  have hother : ∀ p, pool s.class' ≠ p → w.splices p ≤ maxSplicesPerPool := fun p hp => by
    have hp' := (hbound p).2.2
    rwa [if_neg hp] at hp'
  have hinbox := (h.fine i s hs).dry (by rw [hphase]; rfl)
  have hheld : ∀ p, s.held p = s.one p := fun p => by
    simp [Session.held, Session.places, hphase, Phase.busy, Phase.counting, hinbox]
  unfold World.act
  rw [hphase]
  dsimp only
  by_cases hfull : maxSplicesPerPool ≤ before
  · rw [if_pos hfull]
    have hpos : 1 ≤ w.splices (pool s.class') := by
      have hle : s.held (pool s.class') ≤ w.held (pool s.class') :=
        Table.le_total (fun s' : Session => s'.held (pool s.class')) hs
      have hone : s.one (pool s.class') = 1 := if_pos rfl
      rw [h.counted_even]
      have hp := hheld (pool s.class')
      omega
    have hsub : (w.splices (pool s.class') + (2 ^ 64 - 1)) % 2 ^ 64 = w.splices (pool s.class') - 1 := by
      unfold maxSplicesPerPool at hbefore
      omega
    refine h.unlock hs { s with phase := .ended } hphase rfl (by simp) rfl hinbox rfl rfl h.caps
      (fun _ _ => id) (fun p => ?_) fun p => ?_
    · show Function.update w.splices _ ((w.splices (pool s.class') + (2 ^ 64 - 1)) % 2 ^ 64) p ≤ _
      by_cases hp : pool s.class' = p
      · subst hp
        rw [Function.update_self, hsub]
        omega
      · rw [Function.update_of_ne (Ne.symm hp)]
        exact hother p hp
    · have hended : Session.held { s with phase := .ended } p = 0 := by
        simp [Session.held, Session.places, Phase.busy, Phase.counting, hinbox]
      show Function.update w.splices _ ((w.splices (pool s.class') + (2 ^ 64 - 1)) % 2 ^ 64) p + _ = _
      rw [hheld, hended]
      by_cases hp : pool s.class' = p
      · subst hp
        rw [Function.update_self, hsub, Session.one, if_pos rfl]
        omega
      · rw [Function.update_of_ne (Ne.symm hp), Session.one, if_neg hp]
  · rw [if_neg hfull]
    cases hrow : w.desk.parked[to']? with
    | none =>
      rw [hrow] at hpark
      cases hpark
    | some row =>
      rw [hrow] at hpark
      have hclass : row.class' = s.class' := of_decide_eq_true hpark
      refine h.unlock hs { s with phase := .reserved row.hand } hphase rfl ?_ rfl hinbox rfl rfl
        (h.caps.erase to') (fun _ _ => mem_erase) (fun p => ?_) fun p => ?_
      · rintro park (hpark | hpark)
        · cases hpark
          obtain ⟨t, ht, htclass⟩ := h.rows to' row hrow
          exact ⟨t, ht, htclass.trans hclass⟩
        · cases hpark
      · show w.splices p ≤ maxSplicesPerPool
        by_cases hp : pool s.class' = p
        · subst hp
          omega
        · exact hother p hp
      · have hreserved : Session.held { s with phase := .reserved row.hand } p = s.held p := by
          rw [hheld]
          simp [Session.held, Session.places, Phase.busy, Phase.counting, Session.one, hinbox]
        show w.splices p + _ = _
        rw [hreserved]

/-- **A handoff**: taken by the channel, or its place given back. -/
theorem Inv.hand (h : w.Inv s.one) {park : ℕ}
    (htarget : ∀ t, w.sessions[park]? = some t → t.class' = s.class' ∧ t.phase ≠ .drained) :
    (w.hand s park).Inv even := by
  have hback : (w.fetchSub (pool s.class')).Inv even := h.fetchSub fun q => (Nat.zero_add _).symm
  unfold World.hand
  cases ht : w.sessions[park]? with
  | none => exact hback
  | some t =>
    dsimp only
    split_ifs with hopen
    · obtain ⟨hclass, hdry⟩ := htarget t ht
      obtain ⟨hreceives, hinbox⟩ := hopen
      have hlistens := Phase.listens_of_receives hreceives hdry
      refine h.put ht rfl (Phase.counting_of_receives hreceives)
        (fine_of (.inl hreceives) fun hd => ?_) fun p => ?_
      · change t.phase.listens = false at hd
        rw [hlistens] at hd
        cases hd
      · have hone : t.one p = s.one p := by rw [Session.one, Session.one, hclass]
        have hone' : Session.one { t with inbox := some s.peer } p = s.one p := hone
        simp only [Session.held, Session.places, hinbox, hone, hone', Option.isSome_none,
          Option.isSome_some]
        simp
        omega
    · exact hback

/-- **One step.** -/
theorem Inv.act (h : w.Inv even) (hs : w.sessions[i]? = some s) {luck : Luck}
    (hcareful : w.careful (.acts i luck) = true) : (w.act i s luck).Inv even := by
  rw [World.careful, hs, Option.all_some] at hcareful
  cases hphase : s.phase with
  | asksPark =>
    rw [World.act, hphase]
    dsimp only
    split_ifs with hlock
    · exact h
    rw [Option.not_isSome_iff_eq_none] at hlock
    have hdesk := h.setDesk hlock (h.caps.park s.peer s.class' i) fun to' row hrow => by
      rcases mem_park hrow with hold | ⟨hclass, hhand⟩
      · exact h.rows to' row hold
      · exact ⟨s, hhand ▸ hs, hclass.symm⟩
    have hinbox := (h.fine i s hs).dry (by rw [hphase]; rfl)
    generalize w.desk.park s.peer s.class' i = outcome at hdesk ⊢
    obtain ⟨desk, ticket⟩ := outcome
    cases ticket with
    | some ticket => exact hdesk.moves hs (by rw [hphase]; rfl) rfl (by rw [hphase]; rfl) (fine_of (.inl rfl) nofun)
    | none =>
      exact hdesk.moves hs (by rw [hphase]; rfl) rfl (by rw [hphase]; rfl) (fine_of (.inr rfl) fun _ => hinbox)
  | parks ticket =>
    rw [World.act, hphase]
    dsimp only
    split_ifs with hfails hinbox
    · exact h.moves hs (by rw [hphase]; rfl) rfl (by rw [hphase]; rfl) (fine_of (.inl rfl) nofun)
    · refine h.put hs rfl (by rw [hphase]; rfl) (fine_of (.inl rfl) (by simp)) fun p => ?_
      simp [Session.held, Session.places, hphase, Phase.busy, Phase.counting, Session.one, hinbox]
    · exact h
  | carries ticket =>
    rw [World.act, hphase]
    dsimp only
    split_ifs with hfails
    · refine h.gives hs rfl (by rw [hphase]; rfl) (fine_of (.inl rfl) nofun) fun p => ?_
      simp [Session.held, Session.places, hphase, Phase.busy, Phase.counting, Session.one, Nat.add_comm]
    · exact h
  | leaves ticket =>
    rw [World.act, hphase]
    dsimp only
    split_ifs with hlock
    · exact h
    rw [Option.not_isSome_iff_eq_none] at hlock
    have hdesk := h.setDesk hlock (h.caps.leave s.peer ticket) fun to' row hrow => h.rows to' row (mem_leave hrow)
    exact hdesk.moves hs (by rw [hphase]; rfl) rfl (by rw [hphase]; rfl) (fine_of (.inl rfl) nofun)
  | drains =>
    rw [World.act, hphase]
    dsimp only
    split_ifs with hinbox
    · refine h.gives hs rfl (by rw [hphase]; rfl) (fine_of (.inl rfl) (by simp)) fun p => ?_
      simp [Session.held, Session.places, hphase, Phase.busy, Phase.counting, Session.one, hinbox]
    · exact h.moves hs (by rw [hphase]; rfl) rfl (by rw [hphase]; rfl)
        (fine_of (.inl rfl) fun _ => Option.not_isSome_iff_eq_none.mp hinbox)
  | drained =>
    have hdry := (h.fine i s hs).dry (by rw [hphase]; rfl)
    rw [World.act, hphase]
    refine h.put hs rfl (by rw [hphase]; rfl) (fine_of (.inr rfl) fun _ => rfl) fun p => ?_
    simp [Session.held, Session.places, hphase, Phase.busy, Phase.counting, hdry]
  | asksSplice to' =>
    rw [World.act, hphase]
    dsimp only
    split_ifs with hlock hpark
    · exact h
    · exact h.lock hs (Option.not_isSome_iff_eq_none.mp hlock) hphase hpark.2 rfl
    · exact h.moves hs (by rw [hphase]; rfl) rfl (by rw [hphase]; rfl)
        (fine_of (.inr rfl) fun _ => (h.fine i s hs).dry (by rw [hphase]; rfl))
  | checks to' before => exact h.verdict hs hphase luck
  | reserved park =>
    rw [hphase] at hcareful
    have hnot : luck ≠ .fails := by
      rw [of_decide_eq_true hcareful]
      exact (by simp)
    have htarget := (h.fine i s hs).target park (.inl hphase)
    rw [World.act, hphase]
    dsimp only
    rw [if_neg hnot]
    exact h.moves hs (by rw [hphase]; rfl) rfl (by rw [hphase]; rfl)
      ⟨by simpa using htarget, fun _ => (h.fine i s hs).dry (by rw [hphase]; rfl), (by simp)⟩
  | hands park =>
    rw [World.act, hphase]
    have hput : (w.put i { s with phase := .ended }).Inv s.one := by
      refine h.put hs rfl (by rw [hphase]; rfl)
        (fine_of (.inr rfl) fun _ => (h.fine i s hs).dry (by rw [hphase]; rfl)) fun p => ?_
      simp [Session.held, Session.places, hphase, Phase.busy, Phase.counting, Session.one]
    refine hput.hand fun t ht => ?_
    have hsame : Session.class' { s with phase := .ended } = s.class' := rfl
    obtain ⟨t₁, ht₁, hclass⟩ := exists_put hs hsame ((h.fine i s hs).target park (.inr hphase))
    rw [ht] at ht₁
    cases ht₁
    refine ⟨hclass, ?_⟩
    change (w.sessions.insert i _)[park]? = some t at ht
    rw [Table.getElem?_insert'] at ht
    split_ifs at ht
    · cases ht
      exact (by simp)
    · rw [hphase] at hcareful
      dsimp only at hcareful
      rw [ht, Option.all_some] at hcareful
      exact of_decide_eq_true hcareful
  | ended =>
    rw [World.act, hphase]
    exact h

/-- A new session accounts for nothing. -/
theorem Inv.begins (h : w.Inv even) (hnew : w.sessions[i]? = none)
    (hphase : phase = .asksPark ∨ ∃ to', phase = .asksSplice to') (peer : DeviceId) (class' : Class) :
    (w.put i ⟨peer, class', phase, none⟩).Inv even := by
  have hkept : ∀ {j : ℕ} {t : Session}, w.sessions[j]? = some t →
      (w.put i ⟨peer, class', phase, none⟩).sessions[j]? = some t := by
    intro j t ht
    refine (Table.getElem?_insert_ne _ _ ?_).trans ht
    rintro rfl
    rw [hnew] at ht
    cases ht
  have hexists : ∀ {j : ℕ} {class₁ : Class}, (∃ t, w.sessions[j]? = some t ∧ t.class' = class₁) →
      ∃ t, (w.put i ⟨peer, class', phase, none⟩).sessions[j]? = some t ∧ t.class' = class₁ :=
    fun ⟨t, ht, hclass⟩ => ⟨t, hkept ht, hclass⟩
  refine ⟨fun p => ?_, fun p => ?_, fun j t ht => ?_, fun to' row hrow =>
    hexists (h.rows to' row hrow), h.caps⟩
  · have htotal :=
      Table.total_insert (fun s : Session => s.held p) w.sessions i ⟨peer, class', phase, none⟩
    have hzero : Session.held ⟨peer, class', phase, none⟩ p = 0 := by
      rcases hphase with rfl | ⟨to', rfl⟩ <;> rfl
    rw [hnew, Option.elim_none, hzero] at htotal
    exact (h.counted_even p).trans htotal.symm
  · refine (h.bounded p).mono rfl (fun j hj => ?_) (fun _ => rfl) le_rfl
    have hp := h.bounded p
    unfold AtMost at hp
    rw [hj] at hp
    obtain ⟨t, _, _, ht, _⟩ := hp
    exact (hkept ht).trans ht.symm
  · by_cases hij : i = j
    · subst hij
      change (w.sessions.insert i _)[i]? = some t at ht
      rw [Table.getElem?_insert_self'] at ht
      cases ht
      refine ⟨fun park hpark => ?_, fun _ => rfl, fun to' before hchecks => ?_⟩
      · rcases hphase with rfl | ⟨to', rfl⟩ <;> rcases hpark with hpark | hpark <;> cases hpark
      · rcases hphase with rfl | ⟨to', rfl⟩ <;> cases hchecks
    · change (w.sessions.insert i _)[j]? = some t at ht
      rw [Table.getElem?_insert_ne _ _ hij] at ht
      have hj := h.fine j t ht
      exact ⟨fun park hpark => hexists (hj.target park hpark), hj.dry, hj.locked⟩

/-- **One move.** -/
theorem Inv.step (h : w.Inv even) {move : Move} (hcareful : w.careful move = true) :
    (w.step move).Inv even := by
  cases move with
  | acts i luck =>
    rw [World.step]
    cases hs : w.sessions[i]? with
    | none => exact h
    | some s => exact h.act hs hcareful
  | starts i peer class' to' =>
    rw [World.step]
    split_ifs with hused
    · exact h
    refine h.begins (Option.not_isSome_iff_eq_none.mp hused) ?_ peer class'
    cases to' with
    | none => exact .inl rfl
    | some device => exact .inr ⟨device, rfl⟩

/-- How many sessions are in `reserve` with a splice of a pool counted. -/
def inReserve (w : World) (p : Pool) :
    ℕ := w.sessions.total fun s => if s.phase.counting then s.one p else 0

theorem Inv.not_counting (h : w.Inv even) (hfree : w.reserving = none) (hs : w.sessions[i]? = some s) :
    s.phase.counting = false := by
  cases hphase : s.phase with
  | checks to' before =>
    have hlocked := (h.fine i s hs).locked to' before hphase
    rw [hfree] at hlocked
    cases hlocked
  | _ => rfl

/-- **No place is lost.** Sessions park and splice side by side, and any of them may fail or
close at any step, except that a caller let in hears of it and no handoff meets a park at its
very end. Then each counter is at every moment the number of splices of its pool under way,
with the one that `reserve` is counting; outside `reserve` it is within its bound, it never
falls below zero, and it is zero when all sessions have ended. The parks are within their
caps. -/
theorem places_counted {moves : List Move} (hcareful : start.CarefulRun moves) :
    (∀ p, (start.run moves).splices p = (start.run moves).places p + (start.run moves).inReserve p) ∧
      ((start.run moves).reserving = none → ∀ p, (start.run moves).splices p =
        (start.run moves).places p ∧
        (start.run moves).splices p ≤ maxSplicesPerPool) ∧
      (∀ p, (start.run moves).splices p ≤ maxSplicesPerPool + 1) ∧
      ((∀ (i : ℕ) (s : Session), (start.run moves).sessions[i]? = some s → s.phase = .ended) →
        ∀ p, (start.run moves).splices p = 0) ∧
      Caps (start.run moves).desk := by
  have hrun : ∀ (moves : List Move) (w : World), w.Inv even → w.CarefulRun moves →
      (w.run moves).Inv even := by
    intro moves
    induction moves with
    | nil => exact fun _ h _ => h
    | cons move rest ih => exact fun w h hw => ih (w.step move) (h.step hw.1) hw.2
  have hinv := hrun moves start .start hcareful
  generalize start.run moves = w at hinv ⊢
  have hcounted : ∀ p, w.splices p = w.places p + w.inReserve p := fun p =>
    (hinv.counted_even p).trans (Table.total_add _ _ _)
  refine ⟨hcounted, fun hfree p => ⟨?_, (hinv.bounded p).of_free hfree⟩, fun p =>
    (hinv.bounded p).small,
    fun hended p => ?_, hinv.caps⟩
  · have hzero : w.inReserve p = 0 := Table.total_eq_zero fun r hr => by
      rw [hinv.not_counting hfree (Table.mem_toList.mp hr)]
      rfl
    rw [hcounted, hzero, Nat.add_zero]
  · rw [hinv.counted_even]
    refine Table.total_eq_zero fun r hr => ?_
    have hs := Table.mem_toList.mp hr
    have hphase := hended r.1 r.2 hs
    have hinbox := (hinv.fine r.1 r.2 hs).dry (by rw [hphase]; rfl)
    simp [Session.held, Session.places, hphase, Phase.busy, Phase.counting, hinbox]

/-- Two machines of the relay's own account: one parks, the other is spliced to it and done. -/
def spliced : List Move :=
  [.starts 0 5 .own none, .acts 0 .goesOn, .starts 1 6 .own (some 5), .acts 1 .goesOn, .acts 1 .goesOn,
    .acts 1 .goesOn, .acts 1 .goesOn, .acts 0 .goesOn]

theorem places_counted_spliced :
    (start.run spliced).splices .own = 1 ∧
      (start.run spliced).splices .own = (start.run spliced).places .own + (start.run spliced).inReserve .own := by
  have hcareful : start.CarefulRun spliced := by decide +kernel
  exact ⟨by decide +kernel, (places_counted hcareful).1 .own⟩

/-- The caller is gone when it is told yes. -/
def callerGone : List Move :=
  [.starts 0 5 .own none, .acts 0 .goesOn, .starts 1 6 .own (some 5), .acts 1 .goesOn, .acts 1 .goesOn,
    .acts 1 .fails, .acts 0 .fails, .acts 0 .goesOn, .acts 0 .goesOn, .acts 0 .goesOn]

/-- The parked machine is gone, and the handoff comes after the last look into the channel. -/
def lateHandoff : List Move :=
  [.starts 0 5 .own none, .acts 0 .goesOn, .starts 1 6 .own (some 5), .acts 1 .goesOn, .acts 1 .goesOn,
    .acts 1 .goesOn, .acts 0 .fails, .acts 0 .goesOn, .acts 0 .goesOn, .acts 1 .goesOn,
      .acts 0 .goesOn]

/-- All sessions have ended, and a place is taken for good. -/
theorem place_lost :
    ((start.run callerGone).sessions.toList.all (·.2.phase = .ended) ∧
      (start.run callerGone).splices .own = 1) ∧
      (start.run lateHandoff).sessions.toList.all (·.2.phase = .ended) ∧
      (start.run lateHandoff).splices .own = 1 := by
  decide +kernel

end World

end Relay

end Itsanas
