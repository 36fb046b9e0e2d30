/-
# Storing at the same time

Three paths bring bytes to the vault of a host: `StoreChunk` and `StoreSegment` on the
connections, one at a time under the storing lock, and the hosting rounds of the daemon
(`host_for_bounded` of `itsanas-net/src/session.rs`), which take no lock. Each looks at the
pledge before it writes. Here they are cut at their accesses to what they share, so that
any threads may go between: a chunk or a segment is checked against the total of the moment,
a round against what was left of the pledge when it started.

The bound does not hold. A segment is checked by its body and charged by its encoding, and
two that go at the same time may each find the room that there is once
(`PledgeThreads.pledge_exceeded`). It holds where the pledge has room for the encoding of a
segment whose body fits, and where a round has the vault to itself
(`PledgeThreads.within_pledge`).
-/
import Itsanas.Service

namespace Itsanas

variable {K : Crypto}

/-- A chunk that is offered. -/
structure ChunkOffer where
  caller : DeviceId
  owner : UserId
  address : ChunkId
  sealed : Bytes

/-- A chunk that a round has fetched, and what it has left to do. -/
structure RoundChunk where
  peer : DeviceId
  bounded : Bool
  owner : UserId
  address : ChunkId
  sealed : Bytes
  rest : List ChunkId
  room : ℕ

/-- Where a thread is. -/
inductive StoreTask (K : Crypto)
  | idle
  /-- Waits for the storing lock. -/
  | chunk (offer : ChunkOffer)
  /-- Has the lock, and the chunk was within the pledge. -/
  | chunkFits (offer : ChunkOffer)
  /-- The bound refused the chunk, and marked chunks may go. -/
  | chunkFull (offer : ChunkOffer) (why : NotAdmitted)
  | chunkRetry (offer : ChunkOffer)
  | chunkAdmitted (offer : ChunkOffer)
  | segment (caller : DeviceId) (envelope : SegmentEnvelope K)
  | segmentFits (caller : DeviceId) (envelope : SegmentEnvelope K)
  | segmentAdmitted (caller : DeviceId) (envelope : SegmentEnvelope K)
  /-- A round with `peer`, with the bound of accounts or without. -/
  | round (peer : DeviceId) (bounded : Bool)
  | roundAsks (peer : DeviceId) (bounded : Bool) (room : ℕ)
  | roundGoes (peer : DeviceId) (bounded : Bool) (owner : UserId) (wanted : List ChunkId) (room : ℕ)
  | roundHas (chunk : RoundChunk)
  | roundAdmitted (chunk : RoundChunk)

/-- What a step finds: the moment, and what the peer of a round answers. -/
structure StepInput where
  m : Moment
  wanted : UserId × List ChunkId
  fetched : Option Bytes

theorem Host.of_admits {h h₁ : Host K} {caller : DeviceId} {owner : UserId} {incoming : ℕ} {m : Moment}
    {answer : Except NotAdmitted Unit} (hadmits : h.admits caller owner incoming m = (h₁, answer)) :
    ∃ book, h₁ = { h with book := book } :=
  ⟨_, (congrArg Prod.fst hadmits).symm⟩

variable {task : StoreTask K}

namespace StoreTask

/-- Has the storing lock. -/
def locks : StoreTask K → Bool
  | chunkFits _ | chunkFull _ _ | chunkRetry _ | chunkAdmitted _ | segmentFits _ _
  | segmentAdmitted _ _ => true
  | _ => false

/-- Waits for the storing lock. -/
def waits : StoreTask K → Bool
  | chunk _ | segment _ _ => true
  | _ => false

/-- Is in a round that has read the total. -/
def rounds : StoreTask K → Bool
  | roundAsks _ _ _ | roundGoes _ _ _ _ _ | roundHas _ | roundAdmitted _ => true
  | _ => false

/-- What a thread may start with. -/
def starts : StoreTask K → Bool
  | chunk _ | segment _ _ | round _ _ => true
  | _ => false

variable [SealedLength K]

/-- One access to what is shared. -/
def step (h : Host K) (input : StepInput) : StoreTask K → Host K × StoreTask K
  | idle => (h, idle)
  | chunk o => (h, if h.wouldExceedPledge o.sealed.length then idle else chunkFits o)
  | chunkFits o =>
    match h.admits o.caller o.owner o.sealed.length input.m with
    | (h, .ok ()) => (h, chunkAdmitted o)
    | (h, .error why) => (h, if !why.accountFull then idle else chunkFull o why)
  | chunkFull o why =>
    let (vault, freed) := h.vault.evictMarked o.owner (why.overage o.sealed.length) input.m.unix
    ({ h with vault := vault }, if freed = 0 then idle else chunkRetry o)
  | chunkRetry o =>
    match h.admits o.caller o.owner o.sealed.length input.m with
    | (h, .ok ()) => (h, chunkAdmitted o)
    | (h, .error _) => (h, idle)
  | chunkAdmitted o => ({ h with vault := (h.vault.putChunk o.owner o.address o.sealed).1 }, idle)
  | segment caller e => (h, if h.wouldExceedPledge e.bodyLength then idle else segmentFits caller e)
  | segmentFits caller e =>
    match h.admits caller e.owner e.bodyLength input.m with
    | (h, .ok ()) => (h, segmentAdmitted caller e)
    | (h, .error _) => (h, idle)
  | segmentAdmitted _ e => ({ h with vault := (h.vault.putSegment e).1 }, idle)
  | round peer bounded =>
    (h, if h.pledge.bytes ≤ h.vault.heldBytes then idle
      else roundAsks peer bounded (h.pledge.bytes - h.vault.heldBytes))
  | roundAsks peer bounded room => (h, roundGoes peer bounded input.wanted.1 input.wanted.2 room)
  | roundGoes _ _ _ [] _ => (h, idle)
  | roundGoes peer bounded owner (address :: rest) room =>
    (h, if h.vault.hasChunk owner address then roundGoes peer bounded owner rest room
      else
        match input.fetched with
        | none => roundGoes peer bounded owner rest room
        | some sealed =>
          if room < sealed.length then idle else roundHas
            ⟨peer, bounded, owner, address, sealed, rest, room⟩)
  | roundHas c =>
    if !c.bounded then (h, roundAdmitted c)
    else
      match h.admits c.peer c.owner c.sealed.length input.m with
      | (h, .ok ()) => (h, roundAdmitted c)
      | (h, .error _) => (h, idle)
  | roundAdmitted c =>
    let (vault, stored) := h.vault.putChunk c.owner c.address c.sealed
    ({ h with vault := vault },
      roundGoes c.peer c.bounded c.owner c.rest (if stored then c.room - c.sealed.length else c.room))

/-! ### A thread alone -/

/-- A thread that nobody goes between. -/
def alone (m : Moment) : ℕ → Host K × StoreTask K → Host K × StoreTask K
  | 0, s => s
  | n + 1, (h, task) => alone m n (task.step h ⟨m, (0, []), none⟩)

theorem alone_idle (m : Moment) (h : Host K) : ∀ n, alone m n (h, idle) = (h, idle)
  | 0 => rfl
  | n + 1 => alone_idle m h n

/-- The steps of a chunk are those of `storeChunk`. -/
theorem runs_storeChunk (h : Host K) (o : ChunkOffer) (m : Moment) :
    alone m 5 (h, chunk o) = ((h.storeChunk o.caller o.owner o.address o.sealed m).1, idle) := by
  unfold Host.storeChunk
  dsimp only
  rw [alone, step]
  by_cases hexceeds : h.wouldExceedPledge o.sealed.length
  · rw [if_pos hexceeds, if_pos hexceeds, alone_idle]
  rw [if_neg hexceeds, if_neg hexceeds, alone, step]
  rcases h.admits o.caller o.owner o.sealed.length m with ⟨h₁, why | _⟩
  · dsimp only
    by_cases hfull : !why.accountFull
    · rw [if_pos hfull, if_pos hfull, alone_idle]
    rw [if_neg hfull, if_neg hfull, alone, step]
    dsimp only
    rcases h₁.vault.evictMarked o.owner (why.overage o.sealed.length) m.unix with ⟨vault, freed⟩
    dsimp only
    by_cases hfreed : freed = 0
    · rw [if_pos hfreed, if_pos hfreed, alone_idle]
    rw [if_neg hfreed, if_neg hfreed, alone, step]
    dsimp only
    rcases ({ h₁ with vault := vault } : Host K).admits o.caller o.owner o.sealed.length m with
      ⟨h₂, why' | _⟩
    · exact alone_idle m h₂ 1
    · rfl
  · exact alone_idle m _ 2

/-- The steps of a segment are those of `storeSegment`. -/
theorem runs_storeSegment (h : Host K) (caller : DeviceId) (e : SegmentEnvelope K) (m : Moment) :
    alone m 3 (h, segment caller e) = ((h.storeSegment caller e m).1, idle) := by
  unfold Host.storeSegment
  rw [alone, step]
  by_cases hexceeds : h.wouldExceedPledge e.bodyLength
  · rw [if_pos hexceeds, if_pos hexceeds, alone_idle]
  rw [if_neg hexceeds, if_neg hexceeds, alone, step]
  rcases h.admits caller e.owner e.bodyLength m with ⟨h₁, why | _⟩
  · exact alone_idle m h₁ 1
  · dsimp only
    rw [alone, step]
    rcases h₁.vault.putSegment e with ⟨vault, error | accepted⟩ <;> rfl

/-! ### What a thread relies on -/

/-- The room a thread has seen is there. -/
def Fits (h : Host K) : StoreTask K → Prop
  | chunkFits o | chunkFull o _ | chunkRetry o | chunkAdmitted o =>
    h.vault.heldBytes + o.sealed.length ≤ h.pledge.bytes
  | segmentFits _ e | segmentAdmitted _ e => h.vault.heldBytes + e.encodedLength ≤ h.pledge.bytes
  | roundAsks _ _ room | roundGoes _ _ _ _ room => h.vault.heldBytes + room ≤ h.pledge.bytes
  | roundHas c | roundAdmitted c =>
    h.vault.heldBytes + c.room ≤ h.pledge.bytes ∧ c.sealed.length ≤ c.room
  | _ => True

/-- Between its look at the pledge and its end. -/
def active (task : StoreTask K) : Bool := task.locks || task.rounds

omit [SealedLength K] in
theorem active_of_starts (h : task.starts = true) : task.active = false := by
  cases task <;> first | rfl | cases h

omit [SealedLength K] in
theorem active_of_locks (h : task.locks = true) : task.active = true := by
  rw [active, h, Bool.true_or]

/-- A thread gets into the middle with the lock or by starting a round. -/
theorem active_step {h : Host K} {input : StepInput} (hbefore : task.active = false)
    (hafter : (task.step h input).2.active = true) :
    task.waits = true ∨ ∃ peer bounded, task = .round peer bounded := by
  cases task with
  | idle => cases hafter
  | chunk _ => exact .inl rfl
  | segment _ _ => exact .inl rfl
  | round peer bounded => exact .inr ⟨peer, bounded, rfl⟩
  | _ => cases hbefore

/-- Only threads in the middle rely on anything. -/
theorem fits_of_inactive (h : task.active = false) (host : Host K) : task.Fits host := by
  cases task <;> trivial

/-- The encoding of a segment fits if its body does. -/
def Whole (h : Host K) : StoreTask K → Prop
  | segment _ e => h.vault.heldBytes + e.bodyLength ≤ h.pledge.bytes →
      h.vault.heldBytes + e.encodedLength ≤ h.pledge.bytes
  | _ => True

/-- What one step keeps: the vault is in order and within the pledge, and what the thread has
seen is there. A thread that has not looked yet changes nothing. -/
structure Kept (h : Host K) (task : StoreTask K) (h' : Host K) (task' : StoreTask K) : Prop where
  vault : h'.vault.Ok
  pledge : h'.pledge = h.pledge
  within : h'.vault.heldBytes ≤ h'.pledge.bytes
  fits : task'.Fits h'
  looks : task.active = false → h' = h

section
variable {h : Host K} (hvault : h.vault.Ok) (hwithin : h.vault.heldBytes ≤ h.pledge.bytes)
include hvault hwithin

/-- A step that touches the book at most. -/
theorem Kept.asked {task task' : StoreTask K} {book : ClaimBook} (hfits : task'.Fits h)
    (hlooks : task.active = false → book = h.book) : Kept h task { h with book := book } task' := by
  refine ⟨hvault, rfl, hwithin, ?_, fun hactive => ?_⟩
  · cases task' <;> exact hfits
  · rw [hlooks hactive]

omit [SealedLength K] hwithin in
theorem heldBytes_putChunk_le (owner : UserId) (address : ChunkId) (sealed : Bytes) :
    (h.vault.putChunk owner address sealed).1.heldBytes ≤ h.vault.heldBytes +
      if (h.vault.putChunk owner address sealed).2 then sealed.length else 0 :=
  (hvault.putChunk owner address sealed).2.1.le

theorem step_kept (hfits : task.Fits h) (hwhole : task.Whole h) (input : StepInput) :
    Kept h task (task.step h input).1 (task.step h input).2 := by
  have hsame : ∀ {task' : StoreTask K}, task'.Fits h → Kept h task h task' :=
    fun hfits' => ⟨hvault, rfl, hwithin, hfits', fun _ => rfl⟩
  cases task with
  | idle => exact hsame trivial
  | chunk o =>
    simp only [step, Host.wouldExceedPledge, decide_eq_true_eq]
    split_ifs with hexceeds
    · exact hsame trivial
    · exact hsame (not_lt.mp hexceeds)
  | chunkFits o =>
    simp only [step]
    rcases hadmits : h.admits o.caller o.owner o.sealed.length input.m with ⟨h₁, why | _⟩
    all_goals
      obtain ⟨book, rfl⟩ := Host.of_admits hadmits
      dsimp only
    · split_ifs
      · exact Kept.asked hvault hwithin trivial (by intros; contradiction)
      · exact Kept.asked hvault hwithin hfits (by intros; contradiction)
    · exact Kept.asked hvault hwithin hfits (by intros; contradiction)
  | chunkFull o why =>
    have hevicted := hvault.evictMarked o.owner (why.overage o.sealed.length) input.m.unix
    simp only [step]
    refine ⟨hevicted.ok, rfl, hevicted.held.trans hwithin, ?_, (by intros; contradiction)⟩
    split_ifs
    · trivial
    · exact (Nat.add_le_add_right hevicted.held _).trans hfits
  | chunkRetry o =>
    simp only [step]
    rcases hadmits : h.admits o.caller o.owner o.sealed.length input.m with ⟨h₁, why | _⟩
    all_goals
      obtain ⟨book, rfl⟩ := Host.of_admits hadmits
      dsimp only
    · exact Kept.asked hvault hwithin trivial (by intros; contradiction)
    · exact Kept.asked hvault hwithin hfits (by intros; contradiction)
  | chunkAdmitted o =>
    have hput := heldBytes_putChunk_le hvault o.owner o.address o.sealed
    refine ⟨(hvault.putChunk _ _ _).1, rfl, ?_, trivial, (by intros; contradiction)⟩
    have hroom : h.vault.heldBytes + o.sealed.length ≤ h.pledge.bytes := hfits
    show (h.vault.putChunk o.owner o.address o.sealed).1.heldBytes ≤ h.pledge.bytes
    split_ifs at hput <;> omega
  | segment caller e =>
    simp only [step, Host.wouldExceedPledge, decide_eq_true_eq]
    split_ifs with hexceeds
    · exact hsame trivial
    · exact hsame (hwhole (not_lt.mp hexceeds))
  | segmentFits caller e =>
    simp only [step]
    rcases hadmits : h.admits caller e.owner e.bodyLength input.m with ⟨h₁, why | _⟩
    all_goals
      obtain ⟨book, rfl⟩ := Host.of_admits hadmits
      dsimp only
    · exact Kept.asked hvault hwithin trivial (by intros; contradiction)
    · exact Kept.asked hvault hwithin hfits (by intros; contradiction)
  | segmentAdmitted caller e =>
    obtain ⟨hok, hput⟩ := hvault.putSegment e
    refine ⟨hok, rfl, ?_, trivial, (by intros; contradiction)⟩
    have hroom : h.vault.heldBytes + e.encodedLength ≤ h.pledge.bytes := hfits
    show (h.vault.putSegment e).1.heldBytes ≤ h.pledge.bytes
    obtain ⟨hsame, -⟩ | ⟨-, hheld, -⟩ := hput
    · rw [hsame]
      exact hwithin
    · rw [hheld]
      exact hroom
  | round peer bounded =>
    simp only [step]
    split_ifs with hfull
    · exact hsame trivial
    · refine hsame ?_
      show h.vault.heldBytes + (h.pledge.bytes - h.vault.heldBytes) ≤ h.pledge.bytes
      omega
  | roundAsks peer bounded room => exact hsame hfits
  | roundGoes peer bounded owner wanted room =>
    cases wanted with
    | nil => exact hsame trivial
    | cons address rest =>
      have hroom : h.vault.heldBytes + room ≤ h.pledge.bytes := hfits
      simp only [step]
      split_ifs with hhas
      · exact hsame hroom
      · cases input.fetched with
        | none => exact hsame hroom
        | some sealed =>
          dsimp only
          split_ifs with hlarge
          · exact hsame trivial
          · exact hsame ⟨hroom, not_lt.mp hlarge⟩
  | roundHas c =>
    simp only [step]
    split_ifs
    · exact hsame hfits
    · rcases hadmits : h.admits c.peer c.owner c.sealed.length input.m with ⟨h₁, why | _⟩
      all_goals
        obtain ⟨book, rfl⟩ := Host.of_admits hadmits
        dsimp only
      · exact Kept.asked hvault hwithin trivial (by intros; contradiction)
      · exact Kept.asked hvault hwithin hfits (by intros; contradiction)
  | roundAdmitted c =>
    have hput := heldBytes_putChunk_le hvault c.owner c.address c.sealed
    obtain ⟨hroom, hsize⟩ : h.vault.heldBytes + c.room ≤ h.pledge.bytes ∧
      c.sealed.length ≤ c.room := hfits
    have hleft : (h.vault.putChunk c.owner c.address c.sealed).1.heldBytes +
        (if (h.vault.putChunk c.owner c.address c.sealed).2 then c.room -
          c.sealed.length else c.room) ≤
          h.pledge.bytes := by
      split_ifs at hput ⊢ <;> omega
    refine ⟨(hvault.putChunk _ _ _).1, rfl, ?_, hleft, (by intros; contradiction)⟩
    show (h.vault.putChunk c.owner c.address c.sealed).1.heldBytes ≤ h.pledge.bytes
    omega

end

end StoreTask

/-! ### Threads -/

/-- A host and the threads at its vault. -/
structure PledgeThreads (K : Crypto) where
  host : Host K
  tasks : ℕ → StoreTask K
  /-- The thread that has the storing lock. -/
  holder : Option ℕ

/-- What happens next: a thread starts, makes its next step, or fails before it. -/
inductive PledgeMove (K : Crypto)
  | start (thread : ℕ) (task : StoreTask K)
  | step (thread : ℕ) (input : StepInput)
  | fail (thread : ℕ)

def PledgeMove.thread : PledgeMove K → ℕ
  | start thread _ | step thread _ | fail thread => thread

namespace PledgeThreads

variable [SealedLength K]

/-- The thread goes on with `task`; the lock is with it as long as it needs it. -/
def goes (w : PledgeThreads K) (thread : ℕ) (host : Host K)
    (task : StoreTask K) : PledgeThreads K where
  host := host
  tasks := Function.update w.tasks thread task
  holder := if task.locks then some thread else if w.holder = some thread then none else w.holder

variable {host : Host K}

omit [SealedLength K] in
theorem goes_tasks_self {w : PledgeThreads K} {thread : ℕ} :
    (w.goes thread host task).tasks thread = task := Function.update_self ..

omit [SealedLength K] in
theorem goes_tasks_ne {w : PledgeThreads K} {thread other : ℕ}
    (hne : other ≠ thread) : (w.goes thread host task).tasks other = w.tasks other :=
  Function.update_of_ne hne ..

def step (w : PledgeThreads K) : PledgeMove K → PledgeThreads K
  | .start thread task =>
    match w.tasks thread with
    | .idle => if task.starts then w.goes thread w.host task else w
    | _ => w
  | .step thread input =>
    let task := w.tasks thread
    -- a thread that waits for the lock stays where it is while another has it
    if task.waits ∧ w.holder.isSome then w
    else
      let (host, task') := task.step w.host input
      w.goes thread host task'
  | .fail thread => w.goes thread w.host .idle

def run (w : PledgeThreads K) (moves : List (PledgeMove K)) : PledgeThreads K := moves.foldl step w

/-- A move is one thread's. -/
theorem tasks_step_ne (w : PledgeThreads K) {move : PledgeMove K} {other : ℕ}
    (hne : other ≠ move.thread) :
    (w.step move).tasks other = w.tasks other := by
  cases move with
  | fail thread => exact goes_tasks_ne hne
  | start thread task =>
    simp only [step]
    split
    · split_ifs
      · exact goes_tasks_ne hne
      · rfl
    · rfl
  | step thread input =>
    simp only [step]
    split_ifs
    · rfl
    · exact goes_tasks_ne hne

theorem tasks_run_ne (w : PledgeThreads K) {moves : List (PledgeMove K)} {other : ℕ}
    (hne : ∀ move ∈ moves, other ≠ move.thread) : (w.run moves).tasks other = w.tasks other :=
  List.foldlRecOn (motive := fun w' => w'.tasks other = w.tasks other) moves step rfl
    fun w' hw' move hmove => (w'.tasks_step_ne (hne move hmove)).trans hw'

/-- Nothing looks at the pledge while another thread is in a round, no round looks while
another thread is between its look and its end, and the encoding of a segment fits if its body
does. -/
def Careful (w : PledgeThreads K) : PledgeMove K → Prop
  | .step thread _ =>
    (w.tasks thread).Whole w.host ∧
      (((w.tasks thread).waits = true → ∀ other, other ≠ thread → (w.tasks other).rounds = false) ∧
        (∀ peer bounded, w.tasks thread = .round peer bounded →
          ∀ other, other ≠ thread → (w.tasks other).active = false))
  | _ => True

def CarefulRun (w : PledgeThreads K) : List (PledgeMove K) → Prop
  | [] => True
  | move :: rest => w.Careful move ∧ (w.step move).CarefulRun rest

/-- The vault is within the pledge, and so it stays when the threads go on: what each relies on
is there, and at most one relies on anything. -/
structure Inv (w : PledgeThreads K) : Prop where
  vault : w.host.vault.Ok
  within : w.host.vault.heldBytes ≤ w.host.pledge.bytes
  fits : ∀ thread, (w.tasks thread).Fits w.host
  alone : ∀ thread other, (w.tasks thread).active = true → other ≠ thread →
    (w.tasks other).active = false
  lock : ∀ thread, (w.tasks thread).locks = true → w.holder = some thread

variable {w : PledgeThreads K}

/-- One thread goes on where nobody else relies on anything, or with nothing new to rely on. -/
theorem Inv.goes (hi : w.Inv) {thread : ℕ} (hvault : host.vault.Ok)
    (hwithin : host.vault.heldBytes ≤ host.pledge.bytes) (hfits : task.Fits host)
    (hothers : (∀ other, other ≠ thread → (w.tasks other).active = false) ∨
      host = w.host ∧ task.active = false) :
    (w.goes thread host task).Inv := by
  refine ⟨hvault, hwithin, fun other => ?_, fun one other hone hne => ?_, fun other hlocks => ?_⟩
  · by_cases hother : other = thread
    · subst hother
      rwa [goes_tasks_self]
    · rw [goes_tasks_ne hother]
      obtain hinactive | ⟨rfl, -⟩ := hothers
      · exact StoreTask.fits_of_inactive (hinactive other hother) _
      · exact hi.fits other
  · by_cases hthread : one = thread
    · subst hthread
      rw [goes_tasks_self] at hone
      rw [goes_tasks_ne hne]
      obtain hinactive | ⟨-, hidle⟩ := hothers
      · exact hinactive other hne
      · rw [hidle] at hone
        cases hone
    · rw [goes_tasks_ne hthread] at hone
      by_cases hother : other = thread
      · subst hother
        rw [goes_tasks_self]
        obtain hinactive | ⟨-, hidle⟩ := hothers
        · rw [hinactive one hthread] at hone
          cases hone
        · exact hidle
      · rw [goes_tasks_ne hother]
        exact hi.alone one other hone hne
  · by_cases hother : other = thread
    · subst hother
      rw [goes_tasks_self] at hlocks
      exact if_pos hlocks
    · rw [goes_tasks_ne hother] at hlocks
      obtain hinactive | ⟨-, hidle⟩ := hothers
      · have hactive := StoreTask.active_of_locks hlocks
        rw [hinactive other hother] at hactive
        cases hactive
      · have hholder := hi.lock other hlocks
        have hfree : ¬ task.locks = true := fun h => by
          rw [StoreTask.active_of_locks h] at hidle
          cases hidle
        have hnot : ¬ w.holder = some thread :=
          fun h => hother (Option.some.inj (hholder.symm.trans h))
        exact ((if_neg hfree).trans (if_neg hnot)).trans hholder

/-- **One step**: a careful one keeps the vault within the pledge. -/
theorem Inv.step (hi : w.Inv) {move : PledgeMove K} (hcareful : w.Careful move) :
    (w.step move).Inv ∧ (w.step move).host.pledge = w.host.pledge := by
  cases move with
  | fail thread => exact ⟨hi.goes hi.vault hi.within trivial (.inr ⟨rfl, rfl⟩), rfl⟩
  | start thread task =>
    simp only [PledgeThreads.step]
    split
    · split_ifs with hstarts
      · have hinactive := StoreTask.active_of_starts hstarts
        exact ⟨hi.goes hi.vault hi.within (StoreTask.fits_of_inactive hinactive _)
          (.inr ⟨rfl, hinactive⟩), rfl⟩
      · exact ⟨hi, rfl⟩
    · exact ⟨hi, rfl⟩
  | step thread input =>
    obtain ⟨hwhole, hlooks, hround⟩ := hcareful
    simp only [PledgeThreads.step]
    split_ifs with hblocked
    · exact ⟨hi, rfl⟩
    have hkept := StoreTask.step_kept hi.vault hi.within (hi.fits thread) hwhole input
    refine ⟨hi.goes hkept.vault hkept.within hkept.fits ?_, hkept.pledge⟩
    by_cases hactive : (w.tasks thread).active = true
    · exact .inl fun other hother => hi.alone thread other hactive hother
    rw [Bool.not_eq_true] at hactive
    by_cases hafter : ((w.tasks thread).step w.host input).2.active = true
    · left
      intro other hother
      obtain hwaits | ⟨peer, bounded, heq⟩ := StoreTask.active_step hactive hafter
      · -- it has just taken the lock, so nobody else has it
        have hfree : w.holder = none := by
          by_contra hheld
          exact hblocked ⟨hwaits, Option.isSome_iff_ne_none.mpr hheld⟩
        have hlocks : (w.tasks other).locks = false := by
          by_contra hheld
          rw [Bool.not_eq_false] at hheld
          rw [hi.lock other hheld] at hfree
          cases hfree
        rw [StoreTask.active, hlocks, hlooks hwaits other hother]
        rfl
      · exact hround peer bounded heq other hother
    · exact .inr ⟨hkept.looks hactive, Bool.not_eq_true _ ▸ hafter⟩

/-- **A whole run.** -/
theorem Inv.run {moves : List (PledgeMove K)} (hi : w.Inv) (hcareful : w.CarefulRun moves) :
    (w.run moves).Inv ∧ (w.run moves).host.pledge = w.host.pledge := by
  induction moves generalizing w with
  | nil => exact ⟨hi, rfl⟩
  | cons move rest ih =>
    obtain ⟨hi', hpledge⟩ := hi.step hcareful.1
    obtain ⟨hrun, hpledge'⟩ := ih hi' hcareful.2
    exact ⟨hrun, hpledge'.trans hpledge⟩

/-- A host whose threads have nothing to do. -/
def idle (h : Host K) : PledgeThreads K := ⟨h, fun _ => .idle, none⟩

theorem Inv.idle {h : Host K} (hvault : h.vault.Ok) (hwithin : h.vault.heldBytes ≤ h.pledge.bytes) :
    (PledgeThreads.idle h).Inv :=
  ⟨hvault, hwithin, fun _ => trivial, nofun, nofun⟩

/-- **Within the pledge.** From a vault within its pledge, along every run of any threads in
which nobody goes between a round's look and its end and no encoding is larger than the room
its body fitted in, the vault is within its pledge. -/
theorem within_pledge {h : Host K} (hvault : h.vault.Ok) (hwithin : h.vault.heldBytes ≤ h.pledge.bytes)
    {moves : List (PledgeMove K)} (hcareful : (idle h).CarefulRun moves) :
    ((idle h).run moves).host.vault.heldBytes ≤ h.pledge.bytes := by
  obtain ⟨hi, hpledge⟩ := (Inv.idle hvault hwithin).run hcareful
  exact hpledge ▸ hi.within

theorem ten_bytes : 10 ≤ u64Max := by decide

/-- A new host of account 7 with a pledge of ten bytes. Device 5 is of the account. -/
def pledgesTen : Host symbolic :=
  { Host.fresh (.new 2 7 fourBytes) with pledge := ⟨10, ten_bytes⟩, book := ClaimBook.presented }

def quiet : StepInput := ⟨Host.moment, (0, []), none⟩

/-- Device 5 stores a chunk of six bytes. -/
def sixBytes : List (PledgeMove symbolic) :=
  [.start 1 (.chunk ⟨5, 7, 8, [1, 2, 3, 4, 5, 6]⟩), .step 1 quiet, .step 1 quiet, .step 1 quiet]

/-- The chunk of six bytes, then a round that fetches four. -/
def oneByOne : List (PledgeMove symbolic) :=
  sixBytes ++ [.start 0 (.round 9 false), .step 0 quiet, .step 0 ⟨Host.moment, (3, [4]), none⟩,
    .step 0 ⟨Host.moment, (0, []), some [1, 2, 3, 4]⟩, .step 0 quiet, .step 0 quiet, .step 0 quiet]

theorem within_pledge_one_by_one :
    ((idle pledgesTen).run oneByOne).host.vault.heldBytes ≤ 10 := by
  refine within_pledge (h := pledgesTen) Depot.new_ok (by decide +kernel) ?_
  refine ⟨trivial, ⟨trivial, fun _ other hother => ?_, nofun⟩, ⟨trivial, nofun, nofun⟩,
    ⟨trivial, nofun, nofun⟩,
    trivial, ⟨trivial, nofun, fun _ _ _ other hother => ?_⟩, ⟨trivial, nofun, nofun⟩,
      ⟨trivial, nofun, nofun⟩,
    ⟨trivial, nofun, nofun⟩, ⟨trivial, nofun, nofun⟩, ⟨trivial, nofun, nofun⟩, trivial⟩
  · rw [tasks_step_ne _ hother]
    rfl
  · by_cases hone : other = 1
    · subst hone
      rfl
    · have hidle : ((idle pledgesTen).run (sixBytes ++ [.start 0 (.round 9 false)])).tasks other =
        .idle :=
        tasks_run_ne _ (by simp [sixBytes, PledgeMove.thread, hone, hother])
      exact congrArg StoreTask.active hidle

/-- What device 5 has to say of one new file: a body of one byte. -/
def fromSibling : Option (SegmentEnvelope symbolic) :=
  match (((Store.new 5 7 fourBytes).writeStream "a".toList [.data [1]] 0).1.flushSegment 1).2 with
  | .ok envelope => envelope
  | .error _ => none

/-- A segment whose body fits and whose encoding does not; and a chunk of six bytes between
the look of a round and its own six. -/
theorem pledge_exceeded :
    (∃ envelope, fromSibling = some envelope ∧ envelope.bodyLength = 1 ∧
      10 < ((idle pledgesTen).run
        [.start 0 (.segment 5 envelope), .step 0 quiet, .step 0 quiet,
          .step 0 quiet]).host.vault.heldBytes) ∧
    10 < ((idle pledgesTen).run
      ([.start 0 (.round 9 false), .step 0 quiet] ++ sixBytes ++
        [.step 0 ⟨Host.moment, (3, [4]), none⟩,
          .step 0 ⟨Host.moment, (0, []), some [1, 2, 3, 4, 5, 6]⟩,
          .step 0 quiet, .step 0 quiet, .step 0 quiet])).host.vault.heldBytes := by
  refine ⟨⟨_, rfl, by decide +kernel, by decide +kernel⟩, by decide +kernel⟩

end PledgeThreads

end Itsanas
