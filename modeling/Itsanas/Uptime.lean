/-
# How often a device was there

`uptime.rs` and `liveness.rs` of `itsanas-placement`: a ring of hourly bits for each device,
the hours this node tried to reach it and those it was seen in, and the figures made of it.
The eleven words of a ring are one bit vector, bit `i` being bit `i % 64` of word `i / 64`.
-/
import Itsanas.Version

namespace Itsanas

/-- Hours a ring remembers. -/
def windowHours : ℕ := 672

/-- Hours of history before there is a figure. -/
def minSpanHours : ℕ := 7 * 24

/-- Hours tried before there is a figure. -/
def minAttemptedHours : ℕ := 24

def ppm : ℕ := 1000000

/-- The hourly record of one device. -/
structure Uptime where
  firstHour : ℕ
  lastHour : ℕ
  attempted : BitVec 704
  seen : BitVec 704
  deriving DecidableEq

namespace Uptime

/-- The bit of an hour. -/
def bit (hour : ℕ) : BitVec 704 := BitVec.twoPow 704 (hour % windowHours)

def isSet (bits : BitVec 704) (hour : ℕ) : Bool := bits.getLsbD (hour % windowHours)

def new (hour : ℕ) : Uptime := ⟨hour, hour, 0, 0⟩

/-- Clear the bits of an hour a window ago. -/
def clearStale (acc : Uptime × Bool) (stale : ℕ) : Uptime × Bool :=
  if isSet acc.1.attempted stale then
    ({ acc.1 with
        attempted := acc.1.attempted &&& ~~~bit stale
        seen := acc.1.seen &&& ~~~bit stale }, true)
  else acc

/-- Bring the ring forward to `hour`: a jump past the window starts it over. -/
def forward (u : Uptime) (hour : ℕ) : Uptime × Bool :=
  if windowHours ≤ hour - u.lastHour then (new hour, true)
  else
    let (cleared, changed) :=
      (List.range' (u.lastHour + 1) (hour - u.lastHour)).foldl clearStale (u, false)
    if hour = u.lastHour then (cleared, changed) else ({ cleared with lastHour := hour }, true)

/-- One observation. A clock that steps back is ignored. Says whether anything changed. -/
def note (u : Uptime) (hour : ℕ) (seen : Bool) : Uptime × Bool :=
  if hour < u.lastHour then (u, false)
  else
    let (u, changed) := u.forward hour
    let (u, changed) :=
      if isSet u.attempted hour then (u, changed)
      else ({ u with attempted := u.attempted ||| bit hour }, true)
    if seen ∧ ¬isSet u.seen hour then ({ u with seen := u.seen ||| bit hour }, true) else (u, changed)

/-- The oldest hour inside the ring. -/
def windowStart (u : Uptime) : ℕ := max (u.lastHour - (windowHours - 1)) u.firstHour

def attemptedAt (u : Uptime) (hour : ℕ) : Bool :=
  u.windowStart ≤ hour ∧ hour ≤ u.lastHour ∧ isSet u.attempted hour

def seenAt (u : Uptime) (hour : ℕ) : Bool :=
  u.windowStart ≤ hour ∧ hour ≤ u.lastHour ∧ isSet u.seen hour

/-- The bits that are set, word by word. -/
def countOnes (bits : BitVec 704) : ℕ :=
  ((List.range 11).map fun word => (List.range 64).countP fun i => bits.getLsbD (64 * word + i)).sum

def attemptedHours (u : Uptime) : ℕ := countOnes u.attempted

def seenHours (u : Uptime) : ℕ := countOnes u.seen

/-- The hours of the window, oldest first. -/
def window (u : Uptime) : List ℕ := List.range' u.windowStart (u.lastHour + 1 - u.windowStart)

def lastSeenHour (u : Uptime) : Option ℕ := u.window.reverse.find? u.seenAt

/-- The longest gap between two hours it was seen in. -/
def longestGapHours (u : Uptime) : ℕ :=
  (u.window.foldl (fun (acc : Option ℕ × ℕ) hour =>
    if u.seenAt hour then (some hour, acc.1.elim acc.2 fun before =>
      max acc.2 (hour - before - 1)) else acc)
    (none, 0)).2

/-- Seen in so many of a thousand hours tried. None on too little history, and zero if it has
been gone for longer than `lostAfterHours`. -/
def availability (u : Uptime) (nowHour lostAfterHours : ℕ) : Option ℕ :=
  if nowHour - u.firstHour < minSpanHours then none
  else if u.attemptedHours < minAttemptedHours then none
  else if (u.lastSeenHour).any fun last => nowHour - last ≤ lostAfterHours then
    let share := u.seenHours * 1000 / u.attemptedHours
    some (if share < 2 ^ 16 then share else 1000)
  else some 0

/-- The bits of those hours of a window in which `p` holds. -/
def bitsWhere (p : ℕ → Bool) (hours : List ℕ) : BitVec 704 :=
  hours.foldl (fun bits hour => if p hour then bits ||| bit hour else bits) 0

/-- Several devices as one. -/
def union (rings : List Uptime) : Option Uptime :=
  match (rings.map firstHour).min?, (rings.map lastHour).max? with
  | some first, some last =>
    let joined : Uptime := { new last with firstHour := first }
    some { joined with
      attempted := bitsWhere (fun hour => rings.any (·.attemptedAt hour)) joined.window
      seen := bitsWhere (fun hour => rings.any (·.seenAt hour)) joined.window }
  | _, _ => none

end Uptime

/-! ### How long a host may stay silent -/

/-- Seven days, in seconds. -/
def lostAfterFloor : ℕ := 7 * 24 * 3600

/-- Thirteen days. -/
def lostAfterCeiling : ℕ := 13 * 24 * 3600

/-- Twice the longest gap, between the two bounds. -/
def lostAfter (uptime : Option Uptime) : ℕ :=
  uptime.elim lostAfterFloor fun u =>
    min (max (min (u.longestGapHours * (2 * 3600)) u64Max) lostAfterFloor) lostAfterCeiling

def lostAfterHours (uptime : Option Uptime) : ℕ := lostAfter uptime / 3600

/-! ### The chance that nothing is there -/

/-- One thing that may be there or not. -/
structure UptimeUnit where
  uptime : Option Uptime
  lostAfterHours : ℕ

/-- The product of the absences, rounded down at each factor. -/
def independentPpm (units : List UptimeUnit) (nowHour : ℕ) : ℕ :=
  units.foldl (fun independent unit =>
    let available := (unit.uptime.bind (·.availability nowHour unit.lostAfterHours)).getD 0
    independent * (ppm - min available 1000 * 1000) / ppm) ppm

/-- The share of the hours in which all were tried and none was seen, over enough hours. -/
def empiricalPpm (rings : List Uptime) (nowHour : ℕ) : Option ℕ :=
  let start := nowHour - (windowHours - 1)
  let joint := (List.range' start (nowHour + 1 - start)).filter fun hour =>
    rings.all (·.attemptedAt hour)
  let missed := joint.countP fun hour => ¬rings.any (·.seenAt hour)
  if minAttemptedHours ≤ joint.length then some (missed * ppm / joint.length) else none

/-- The chance that no unit is there, in ppm: the worse of the two figures. -/
def missPpm (units : List UptimeUnit) (nowHour : ℕ) : ℕ :=
  let independent := independentPpm units nowHour
  let empirical :=
    match units.mapM UptimeUnit.uptime with
    | some (ring :: rings) => empiricalPpm (ring :: rings) nowHour
    | _ => none
  let worse := empirical.elim independent fun figure => max figure independent
  min worse (2 ^ 32 - 1)

end Itsanas
