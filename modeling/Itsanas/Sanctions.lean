/-
# What a failed audit costs

`itsanas-store/src/reliability.rs`, with `note_audit` of `index.rs`: a round that a device fails
counts against it, and a round it passes pays off one. With three failures it is paused, and is sent
nothing but segments and one chunk a round, until nothing is left to pay off.

The sanction is meant to end a cheap attack: accept what is sent, throw it away, and be sent it
again. Whatever else is done to the index, a device fails while it is trusted at most three times
more often than it passes; and a paused one is back after the rounds it owes, of which there are at
most `probationCeiling` (`Index.failures_paid_for`).
-/
import Itsanas.Holders

namespace Itsanas

variable {K : Crypto}

/-! ### What an operation does to what is known of devices -/

/-- Fewer records, and nothing new about devices. -/
structure Ledger.Quieter (l l' : Ledger) : Prop where
  fewer : ∀ (k : ChunkId ×ₗ DeviceId) (stamp : ℕ), l'.holders[k]? = some stamp →
    l.holders[k]? = some stamp
  seen : l'.deviceSeen = l.deviceSeen
  reliability : l'.reliability = l.reliability

theorem Ledger.Quieter.eraseRecord {l l' : Ledger} (h : l.Quieter l') (tag : ChunkId → AuditTag)
    (chunk : ChunkId) (device : DeviceId) : l.Quieter (l'.eraseRecord tag chunk device) := by
  refine ⟨fun k stamp hs => h.fewer k stamp ?_, h.seen, h.reliability⟩
  simp only [Ledger.eraseRecord, Table.getElem?_erase'] at hs
  split_ifs at hs
  exact hs

/-- Record one round. -/
def Reliability.round (r : Reliability) (outcome : Bool × ℕ) : Reliability :=
  if outcome.1 then r.passedOne else r.failedOne outcome.2

namespace Index

/-- The round an operation records for `device`: whether it passed, and when. -/
def LedgerOp.roundOf (device : DeviceId) : LedgerOp → Option (Bool × ℕ)
  | .noteAudit d passed now => if d = device then some (passed, now) else none
  | _ => none

/-- When a device is heard of, if it is. -/
def LedgerOp.time : LedgerOp → Option ℕ
  | .recordHolders _ _ now | .recordStored _ _ now | .noteAudit _ _ now | .noteSeen _ now _ => some now
  | _ => none

/-- An operation is an audit, or hears of a device, or records what it acknowledged, or makes it
quieter. -/
inductive Moves (ix : Index K) : LedgerOp → Prop
  | quieter {op : LedgerOp} (hround : ∀ d, op.roundOf d = none)
      (h : ix.ledger.Quieter (op.apply ix).ledger) :
      Moves ix op
  | records {op : LedgerOp} {l : Ledger} {due : List ChunkId} {device : DeviceId} {now : ℕ}
      (hround : ∀ d, op.roundOf d = none) (htime : op.time = some now) (h : ix.ledger.Quieter l)
      (happly : (op.apply ix).ledger = l.recordDue K.auditTag due device now) : Moves ix op
  | hears {op : LedgerOp} {device : DeviceId} {now : ℕ} (hround : ∀ d, op.roundOf d = none)
      (htime : op.time = some now)
      (happly : (op.apply ix).ledger =
        { ix.ledger with deviceSeen := ix.ledger.deviceSeen.insert device now }) :
      Moves ix op
  | audit {device : DeviceId} {passed : Bool} {now : ℕ} : Moves ix (.noteAudit device passed now)

/-- **Every operation moves the ledger in one of these ways.** -/
theorem moves (ix : Index K) (op : LedgerOp) : Moves ix op := by
  have hsame : ix.ledger.Quieter ix.ledger := ⟨fun _ _ h => h, rfl, rfl⟩
  cases op with
  | noteAudit device passed now => exact .audit
  | recordHolders chunks device now =>
    by_cases hnil : chunks = []
    · exact .quieter (fun _ => rfl)
        (by simpa [LedgerOp.apply, recordHolders, Ledger.recordHolders, hnil] using hsame)
    · exact .records (fun _ => rfl) rfl hsame (if_neg hnil)
  | recordStored chunks device now =>
    by_cases hnil : chunks = []
    · exact .quieter (fun _ => rfl)
        (by simpa [LedgerOp.apply, recordStored, Ledger.recordStored, hnil] using hsame)
    · have hcleared : ix.ledger.Quieter (ix.ledger.clearReleased chunks device) :=
        ⟨fun _ _ h => h, rfl, rfl⟩
      exact .records (fun _ => rfl) rfl hcleared (if_neg hnil)
  | forgetHolder chunk device now =>
    exact .quieter (fun _ => rfl) ⟨(hsame.eraseRecord K.auditTag chunk device).fewer, rfl, rfl⟩
  | forgetHolders chunks device now =>
    refine .quieter (fun _ => rfl)
      (List.foldlRecOn (motive := fun ix' : Index K => ix.ledger.Quieter ix'.ledger)
      chunks _ hsame fun ix' h chunk _ => ?_)
    exact ⟨(h.eraseRecord K.auditTag chunk device).fewer, h.seen, h.reliability⟩
  | forgetDevice device now =>
    refine .quieter (fun _ => rfl)
      (List.foldlRecOn (motive := ix.ledger.Quieter) (ix.ledger.holdingsOf device) _
      ⟨fun _ _ h => h, rfl, rfl⟩ fun l h chunk _ => h.eraseRecord K.auditTag chunk device)
  | forgetChunk chunk =>
    have hdropped : ix.ledger.Quieter (ix.ledger.forgetHoldersOf K.auditTag chunk) :=
      List.foldlRecOn (motive := ix.ledger.Quieter) (ix.ledger.holdersOf chunk) _ hsame fun l h r _ =>
        ⟨(h.eraseRecord K.auditTag chunk r.1).fewer, h.seen, h.reliability⟩
    exact .quieter (fun _ => rfl) ⟨hdropped.fewer, hdropped.seen, hdropped.reliability⟩
  | releaseChunk chunk => exact .quieter (fun _ => rfl) ⟨fun _ _ h => h, rfl, rfl⟩
  | noteSeen device now marks =>
    by_cases hwithin : (ix.ledger.seenWithinStep device now && !marks) = true
    · exact .quieter (fun _ => rfl) (by simpa [LedgerOp.apply, noteSeen, hwithin] using hsame)
    · exact .hears (fun _ => rfl) rfl (congrArg Index.ledger (if_neg hwithin))
  | noteDraining device ends now =>
    refine .quieter (fun _ => rfl) ?_
    show ix.ledger.Quieter (ix.noteDraining device ends now).1.ledger
    unfold noteDraining
    dsimp only
    split_ifs
    · exact hsame
    · exact ⟨fun _ _ h => h, rfl, rfl⟩
  | files tree => exact .quieter (fun _ => rfl) hsame
  | reopen =>
    refine .quieter (fun _ => rfl) ?_
    show ix.ledger.Quieter (ix.ledger.reopen K.auditTag)
    unfold Ledger.reopen Ledger.buildHolderCountsIfMissing Ledger.rebuildHoldingsIfStale
    split_ifs <;> exact ⟨fun _ _ h => h, rfl, rfl⟩

/-! ### Rounds of a device -/

/-- Nothing but an audit of the device touches its record. -/
theorem reliabilityOf_apply (ix : Index K) (op : LedgerOp) (device : DeviceId) :
    (op.apply ix).ledger.reliabilityOf device =
      (op.roundOf device).elim (ix.ledger.reliabilityOf device)
        (ix.ledger.reliabilityOf device).round := by
  have hsame : ∀ l' : Ledger, l'.reliability = ix.ledger.reliability →
      l'.reliabilityOf device = ix.ledger.reliabilityOf device :=
        fun l' h => by rw [Ledger.reliabilityOf, h]; rfl
  cases moves ix op with
  | quieter hround h =>
    rw [hround]
    exact hsame _ h.reliability
  | @records _ l due d now hround _ h happly =>
    rw [hround, happly]
    refine hsame _ (Eq.trans ?_ h.reliability)
    unfold Ledger.recordDue
    split_ifs
    · rfl
    · exact List.foldlRecOn (motive := fun l' : Ledger => l'.reliability = l.reliability) due _ rfl
        fun _ h _ _ => h
  | hears hround _ happly =>
    rw [hround, happly]
    exact hsame _ rfl
  | @audit d passed now =>
    have hnoted : (ix.noteAudit d passed now).1.ledger.reliability =
        ix.ledger.reliability.insert d ((ix.ledger.reliabilityOf d).round (passed, now)) :=
      (apply_ite (fun ix : Index K => ix.ledger.reliability) _ _ _).trans (ite_self _)
    show (ix.noteAudit d passed now).1.ledger.reliabilityOf device = _
    rw [Ledger.reliabilityOf, hnoted, Table.getElem?_insert', LedgerOp.roundOf]
    split_ifs with h
    · rw [h]
      rfl
    · rfl

/-- The rounds of `device` in a run. -/
def roundsOf (device : DeviceId) (ops : List LedgerOp) :
    List (Bool × ℕ) := ops.filterMap (LedgerOp.roundOf device)

theorem reliabilityOf_ledgerRun (device : DeviceId) : ∀ (ops : List LedgerOp) (ix : Index K),
    (ledgerRun ix ops).ledger.reliabilityOf device =
      (roundsOf device ops).foldl Reliability.round (ix.ledger.reliabilityOf device)
  | [], _ => rfl
  | op :: ops, ix => by
    refine (reliabilityOf_ledgerRun device ops (op.apply ix)).trans ?_
    simp only [reliabilityOf_apply, roundsOf, List.filterMap_cons]
    cases op.roundOf device with
    | none => rfl
    | some outcome => rfl

end Index

/-! ### What a failure costs -/

namespace Reliability

/-- How many more passing rounds a device owes before the pause lifts. -/
def roundsToReinstatement (r : Reliability) : ℕ := if r.paused then r.consecutiveFailures else 0

/-- What rounds make of a record: paused with something to pay off, or not paused with too few
failures for it. -/
structure Fair (r : Reliability) : Prop where
  owes : r.paused = true → 0 < r.consecutiveFailures ∧ r.consecutiveFailures ≤ probationCeiling
  free : r.paused = false → r.consecutiveFailures < failuresBeforePause

theorem new_fair : new.Fair where
  owes h := by cases h
  free _ := by decide

variable {r : Reliability}

theorem Fair.round (h : r.Fair) (outcome : Bool × ℕ) : (r.round outcome).Fair := by
  obtain ⟨passed, now⟩ := outcome
  cases passed with
  | true =>
    refine ⟨fun hp => ?_, fun hp => ?_⟩
    · -- still paused: something is left to pay off
      obtain ⟨hleft, hpaused⟩ : r.consecutiveFailures - 1 ≠ 0 ∧ r.paused = true := by
        simpa [Reliability.round, Reliability.passedOne] using hp
      have := h.owes hpaused
      exact ⟨Nat.pos_of_ne_zero hleft, (Nat.sub_le _ 1).trans this.2⟩
    · show r.consecutiveFailures - 1 < failuresBeforePause
      by_cases hzero : r.consecutiveFailures - 1 = 0
      · simp [hzero, failuresBeforePause]
      · have hfree : r.paused =
          false := by simpa [Reliability.round, Reliability.passedOne, hzero] using hp
        have := h.free hfree
        omega
  | false =>
    refine ⟨fun _ => ?_, fun hp => ?_⟩
    · show 0 < min (r.consecutiveFailures + 1) probationCeiling ∧ _ ≤ probationCeiling
      exact ⟨lt_min (Nat.succ_pos _) (by decide), min_le_right _ _⟩
    · -- not paused: the failures are too few for it
      refine not_le.mp fun hle => ?_
      have hpaused : (r.round (false, now)).paused = true := if_pos hle
      simp [hpaused] at hp

/-- A pass pays off one round, and the last one lifts the pause. -/
theorem Fair.passedOne (h : r.Fair) :
    r.passedOne.roundsToReinstatement = r.roundsToReinstatement - 1 ∧
      (r.passedOne.paused = true ↔ 1 < r.roundsToReinstatement) := by
  cases hp : r.paused with
  | false => simp [Reliability.passedOne, roundsToReinstatement, hp]
  | true =>
    have := h.owes hp
    simp only [Reliability.passedOne, roundsToReinstatement, hp]
    split_ifs <;> simp_all <;> omega

/-- Passes in a row lift the pause when there are as many as are owed. -/
theorem Fair.passes :
    ∀ (rounds : List (Bool × ℕ)) {r : Reliability}, r.Fair → (∀ o ∈ rounds, o.1 = true) →
    (rounds.foldl Reliability.round r).roundsToReinstatement =
      r.roundsToReinstatement - rounds.length ∧
      (rounds.foldl Reliability.round r).paused = decide (rounds.length < r.roundsToReinstatement)
  | [], r, h, _ => by
    refine ⟨rfl, ?_⟩
    cases hp : r.paused with
    | false => simp [roundsToReinstatement, hp]
    | true => simpa [roundsToReinstatement, hp] using (h.owes hp).1
  | (passed, now) :: rounds, r, h, hall => by
    obtain ⟨rfl, hrest⟩ : passed = true ∧ ∀ o ∈ rounds, o.1 = true := by simpa using hall
    obtain ⟨howed, hpaused⟩ := Fair.passes rounds (h.round (true, now)) hrest
    have hone : (r.round (true, now)).roundsToReinstatement = r.roundsToReinstatement - 1 :=
      h.passedOne.1
    rw [hone] at howed hpaused
    rw [List.foldl_cons, howed, hpaused, List.length_cons]
    refine ⟨by omega, ?_⟩
    congr 1
    rw [eq_iff_iff]
    omega

/-- A failure while trusted raises what is held against the device, and only a pass lowers it. -/
theorem Fair.charged (h : r.Fair) (outcome : Bool × ℕ) :
    (if !outcome.1 && !r.paused then 1 else 0) + min r.consecutiveFailures 3 ≤
      (if outcome.1 then 1 else 0) + min (r.round outcome).consecutiveFailures 3 := by
  obtain ⟨passed, now⟩ := outcome
  have hfree := h.free
  cases passed with
  | true =>
    simp only [Reliability.round, Reliability.passedOne, Bool.not_true, Bool.false_and,
      Bool.false_eq_true, if_false, if_true]
    omega
  | false =>
    simp only [Reliability.round, Reliability.failedOne, probationCeiling, failuresBeforePause,
      Bool.not_false, Bool.true_and,
      Bool.false_eq_true, if_false, Bool.not_eq_true'] at hfree ⊢
    split_ifs with hp
    · have := hfree hp
      omega
    · omega

end Reliability

namespace Index

/-- How often `device` failed a round while it was still sent content. -/
def failedWhileTrusted (device : DeviceId) : Index K → List LedgerOp → ℕ
  | _, [] => 0
  | ix, op :: ops =>
    (if (op.roundOf device).any
      (fun o => !o.1 && !(ix.ledger.reliabilityOf device).paused) then 1 else 0) +
      failedWhileTrusted device (op.apply ix) ops

theorem failedWhileTrusted_le (device : DeviceId) : ∀ (ops : List LedgerOp) (ix : Index K),
    (ix.ledger.reliabilityOf device).Fair →
    failedWhileTrusted device ix ops + min (ix.ledger.reliabilityOf device).consecutiveFailures 3 ≤
      (roundsOf device ops).countP (·.1) +
        min ((ledgerRun ix ops).ledger.reliabilityOf device).consecutiveFailures 3 ∧
    ((ledgerRun ix ops).ledger.reliabilityOf device).Fair
  | [], ix, h => ⟨by simp [failedWhileTrusted, roundsOf, ledgerRun], h⟩
  | op :: ops, ix, h => by
    have hstep := reliabilityOf_apply ix op device
    have hrest := failedWhileTrusted_le device ops (op.apply ix)
    rw [show ledgerRun ix (op :: ops) = ledgerRun (op.apply ix) ops from rfl]
    cases hround : op.roundOf device with
    | none =>
      rw [hround, Option.elim_none] at hstep
      rw [hstep] at hrest
      simpa [failedWhileTrusted, roundsOf, hround] using hrest h
    | some outcome =>
      rw [hround, Option.elim_some] at hstep
      rw [hstep] at hrest
      obtain ⟨hle, hend⟩ := hrest (h.round outcome)
      have hcharged := h.charged outcome
      refine ⟨?_, hend⟩
      simp only [failedWhileTrusted, roundsOf, List.filterMap_cons, hround, List.countP_cons,
        Option.any_some] at hle ⊢
      omega

/-- **Failures are paid for.** Whatever is done to an index from a new one on: a device failed at
most three rounds more while it was sent content than it passed, and at most two more if it is sent
content now. It never owes more than the ceiling; and from then on, if it passes whenever it is
audited, it is paused until it has passed as many rounds as it owes, and no longer. -/
theorem failures_paid_for (device : DeviceId) (ops : List LedgerOp) :
    let ix := ledgerRun (K := K) .new ops
    let r := ix.ledger.reliabilityOf device
    let passes := (roundsOf device ops).countP (·.1)
    failedWhileTrusted (K := K) device .new ops ≤ passes + 3 ∧
    (r.paused = false → failedWhileTrusted (K := K) device .new ops ≤ passes + 2) ∧
    r.roundsToReinstatement ≤ Reliability.probationCeiling ∧
    ∀ more : List LedgerOp, (∀ o ∈ roundsOf device more, o.1 = true) →
      ((ledgerRun ix more).ledger.reliabilityOf device).paused =
        decide ((roundsOf device more).length < r.roundsToReinstatement) := by
  intro ix r passes
  have hnew : ((.new : Index K).ledger.reliabilityOf device) = Reliability.new := by
    show ((∅ : Table DeviceId Reliability)[device]?).getD Reliability.new = Reliability.new
    rw [Std.ExtTreeMap.getElem?_empty]
    rfl
  have hstart : ((.new : Index K).ledger.reliabilityOf device).Fair := hnew ▸ Reliability.new_fair
  obtain ⟨hle, hfair⟩ := failedWhileTrusted_le device ops .new hstart
  change r.Fair at hfair
  change _ ≤ passes + min r.consecutiveFailures 3 at hle
  refine ⟨by omega, fun hfree => ?_, ?_, fun more hmore => ?_⟩
  · have := hfair.free hfree
    simp only [Reliability.failuresBeforePause] at this
    omega
  · unfold Reliability.roundsToReinstatement
    split_ifs with hp
    · exact (hfair.owes hp).2
    · exact Nat.zero_le _
  · rw [reliabilityOf_ledgerRun]
    exact (hfair.passes _ hmore).2

end Index

end Itsanas
