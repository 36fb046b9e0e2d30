/-
# The log of a device that may crash

Every redb transaction is atomic and durable, and the process may die between any
two. A write is two of them: the entry goes into the index, then the operation
goes into the log; so is a delete. A crash elsewhere costs nothing that a caller
was told: `Crash.log_in_order` holds after every run, and says that no operation is
logged twice, no two share a sequence number, and the chain validates.

A crash between the two transactions of one call leaves a row that no log entry
announces, and no later flush does: `torn_write_is_never_announced`. In a run
without such a crash every row has its entry (`Crash.log_safe`).
-/
import Itsanas.Local
import Itsanas.Symbolic

namespace Itsanas

namespace Crash

variable {K : Crypto}

/-- A call that writes the log. -/
inductive Call
  | write (path : Path) (reader : Reader) (now : ℕ)
  | remove (path : Path) (now : ℕ)
  | removeUnheld (path : Path) (seen : VersionVector) (now : ℕ)
  | flush (segmentId : ObjectId)

/-- The store a call that returns leaves. -/
def Call.whole (st : Store K) : Call → Store K
  | write path reader now => (st.writeStream path reader now).1
  | remove path now => (st.removeFile path now).1
  | removeUnheld path seen now => (st.removeUnheld path seen now).1
  | flush segmentId => (st.flushSegment segmentId).1

/-- The store after the index transaction of a call and before that of its log. A
flush is one transaction. -/
def Call.half (st : Store K) : Call → Store K
  | write path reader now => (st.writeIndex path reader now).1
  | remove path now => (st.removeIndex path now).1
  | removeUnheld path seen now => (st.removeUnheldIndex path seen now).1
  | flush _ => st

/-- What happens to the process. After a crash the blobs are whatever the disk
kept of a stream under way. -/
inductive Event
  | call (c : Call)
  /-- A crash outside the two transactions of a call, and a restart. -/
  | crash (blobs : Table ChunkId Bytes)
  /-- A crash between the two transactions of a call, and a restart. -/
  | torn (c : Call) (blobs : Table ChunkId Bytes)

def restart (st : Store K) (blobs : Table ChunkId Bytes) : Store K :=
  { st.reopen with blobs := blobs }

def apply (st : Store K) : Event → Store K
  | .call c => c.whole st
  | .crash blobs => restart st blobs
  | .torn c blobs => restart (c.half st) blobs

def run (st : Store K) (events : List Event) : Store K := events.foldl apply st

/-- No crash falls between the two transactions of a call. -/
def Event.Clean : Event → Prop
  | .torn _ _ => False
  | _ => True

instance : DecidablePred Event.Clean
  | .torn _ _ => isFalse id
  | .call _ => isTrue trivial
  | .crash _ => isTrue trivial

/-! ### What a call does -/

theorem half_same (st : Store K) (c : Call) : SameNode st (c.half st) := by
  cases c with
  | write path reader now =>
    show SameNode st (st.writeIndex path reader now).1
    rcases st.writeIndex_cases path reader now with ⟨st', error, h, hu⟩ | ⟨st', entry, h, -, hr, -⟩
    · rw [h]
      exact hu.node
    · rw [h]
      exact hr.node
  | remove path now =>
    show SameNode st (st.removeIndex path now).1
    rcases st.removeIndex_cases path now with ⟨r, h, -⟩ | ⟨st', t, f, h, -, -, hr, -⟩
    · rw [h]
      exact .rfl
    · rw [h]
      exact hr.node
  | removeUnheld path seen now =>
    show SameNode st (st.removeUnheldIndex path seen now).1
    unfold Store.removeUnheldIndex
    cases validate path with
    | error error => exact .rfl
    | ok u => exact st.sameNode_putTombstone _ _ _
  | flush segmentId => exact .rfl

variable {st : Store K}

/-- A call that returns moved nothing, logged one operation with its row, or sealed
what was pending. -/
theorem whole_cases (h : LogOk st.owner st.device st.index.log) (c : Call) :
    Unmoved st (c.whole st) ∨
    (∃ e, Logged st (c.whole st) e ∧ e.sequence = st.index.log.next) ∨
    ∃ e, LogOk.SealsPending st.owner st.device st.index.log e ∧
      c.whole st = st.withLog (st.index.log.appended e) := by
  cases c with
  | write path reader now =>
    show Unmoved st (st.writeStream path reader now).1 ∨ _
    rcases st.writeStream_cases path reader now with
      ⟨st', error, heq, hu⟩ | ⟨st', entry, heq, -, hlog, hs⟩
    · rw [heq]
      exact Or.inl hu
    · exact Or.inr (Or.inl ⟨_, by simp only [Call.whole, heq]; exact hlog, hs.sequence⟩)
  | remove path now =>
    show Unmoved st (st.removeFile path now).1 ∨ _
    rcases st.removeFile_cases path now with ⟨r, heq, -⟩ | ⟨st', t, f, heq, -, -, hlog, hs⟩
    · rw [heq]
      exact Or.inl .rfl
    · exact Or.inr (Or.inl ⟨_, by simp only [Call.whole, heq]; exact hlog, hs.sequence⟩)
  | removeUnheld path seen now =>
    show Unmoved st (st.removeUnheld path seen now).1 ∨ _
    rcases st.removeUnheld_cases path seen now with ⟨error, heq⟩ | ⟨st', t, heq, -, hlog, hs⟩
    · rw [heq]
      exact Or.inl .rfl
    · exact Or.inr (Or.inl ⟨_, by simp only [Call.whole, heq]; exact hlog, hs.sequence⟩)
  | flush segmentId =>
    show Unmoved st (st.flushSegment segmentId).1 ∨ _
    rcases Store.flushSegment_spec h segmentId with ⟨-, heq⟩ | ⟨e, hs, heq⟩
    · rw [heq]
      exact Or.inl .rfl
    · exact Or.inr (Or.inr ⟨e, hs, by simp only [Call.whole, heq]⟩)

/-! ### What every run keeps -/

/-- The log of a store is in order, whatever its rows say. -/
structure Sound (owner : UserId) (device : DeviceId) (st : Store K) : Prop where
  owned : st.owner = owner
  named : st.device = device
  log : LogOk owner device st.index.log
  apart : st.tree.Apart

variable {owner : UserId} {device : DeviceId}

theorem whole_sound (h : Sound owner device st) (c : Call) : Sound owner device (c.whole st):= by
  obtain ⟨rfl, rfl, hok, hapart⟩ := h
  rcases whole_cases hok c with hu | ⟨e, hl, hs⟩ | ⟨e, hs, heq⟩
  · exact ⟨hu.node.owner, hu.node.device, by rw [hu.node.log]; exact hok, hu.node.apart hapart⟩
  · exact ⟨hl.home.owner, hl.home.device, by rw [hl.log]; exact hok.pushPending hs,
      hl.home.apart hapart⟩
  · rw [heq]
    exact ⟨rfl, rfl, hok.appended hs, hapart⟩

theorem apply_sound (h : Sound owner device st) (ev : Event) : Sound owner device (apply st ev):= by
  cases ev with
  | call c => exact whole_sound h c
  | crash blobs => exact ⟨h.owned, h.named, h.log, h.apart⟩
  | torn c blobs =>
    have hn := half_same st c
    refine ⟨hn.owner.trans h.owned, hn.device.trans h.named, ?_, hn.apart h.apart⟩
    show LogOk owner device (c.half st).index.log
    rw [hn.log]
    exact h.log

theorem new_sound (device : DeviceId) (owner : UserId) (chunker : Chunker) :
    Sound owner device (.new device owner chunker : Store K) :=
  ⟨rfl, rfl, LogOk.new, fun _ => Or.inl rfl⟩

theorem run_sound (device : DeviceId) (owner : UserId) (chunker : Chunker) (events : List Event) :
    Sound owner device (run (.new device owner chunker : Store K) events) :=
  List.foldlRecOn events _ (new_sound device owner chunker) fun _ h ev _ => apply_sound h ev

/-- Every row has its operation in the log. -/
def Announced (st : Store K) : Prop :=
  ∀ p, st.row p = .absent ∨ ∃ e ∈ st.index.log.entries, e.operation.path = p ∧
    st.row p = e.row st.device

theorem whole_announced
    (h : Sound owner device st) (ha : Announced st) (c : Call) : Announced (c.whole st) := by
  obtain ⟨rfl, rfl, hok, -⟩ := h
  rcases whole_cases hok c with hu | ⟨e, hl, hs⟩ | ⟨e, hs, heq⟩
  · intro p
    rw [hu.row, hu.node.log, hu.node.device]
    exact ha p
  · intro p
    rw [hl.row, hl.log, hok.entries_pushPending hs, hl.home.device]
    by_cases hp : p = e.operation.path
    · subst hp
      exact Or.inr ⟨e, by simp, rfl, Function.update_self _ _ _⟩
    · rw [Function.update_of_ne hp]
      refine (ha p).imp_right ?_
      rintro ⟨x, hx, hpath, hrow⟩
      exact ⟨x, List.mem_append_left _ hx, hpath, hrow⟩
  · intro p
    rw [heq]
    refine (ha p).imp_right ?_
    rintro ⟨x, hx, hpath, hrow⟩
    exact ⟨x, by
      show x ∈ (st.index.log.appended e).entries
      rwa [hok.entries_appended hs], hpath, hrow⟩

theorem run_announced (device : DeviceId) (owner : UserId) (chunker : Chunker) (events : List Event)
    (hc : ∀ ev ∈ events, ev.Clean) :
    Announced (run (.new device owner chunker : Store K) events) := by
  have key : Sound owner device (run (.new device owner chunker : Store K) events) ∧
      Announced (run (.new device owner chunker : Store K) events) := by
    refine List.foldlRecOn (motive := fun st => Sound owner device st ∧ Announced st) events _
      ⟨new_sound device owner chunker, fun p => Or.inl rfl⟩ ?_
    rintro st ⟨hs, ha⟩ ev hev
    refine ⟨apply_sound hs ev, ?_⟩
    cases ev with
    | call c => exact whole_announced hs ha c
    | crash blobs => exact ha
    | torn c blobs => exact (hc _ hev).elim
  exact key.2

/-- **The log after any run**, crashes at any point included: no operation is logged
twice, sealed or pending, no two carry one sequence number, and the chain
validates. -/
theorem log_in_order (device : DeviceId) (owner : UserId) (chunker : Chunker) (events : List Event) :
    let st : Store K := run (.new device owner chunker) events
    (sealedEntries st.segments ++ st.index.log.pendingEntries).Nodup ∧
    (∀ e ∈ st.index.log.entries, ∀ f ∈ st.index.log.entries, e.sequence = f.sequence → e = f) ∧
    validateChain st.segments = .ok () := by
  have h := (run_sound (K := K) device owner chunker events).log
  exact ⟨h.nodup, fun e he f hf heq => h.sequence_inj he hf heq, h.valid⟩

/-- **In a run without a torn call every row this device made is announced.** Each
file entry and each tombstone has its operation among the pending entries or in a
segment; and as after any run, no operation is in two places, no two carry one
sequence number, and the chain validates. -/
theorem log_safe (device : DeviceId) (owner : UserId) (chunker : Chunker) (events : List Event)
    (hc : ∀ ev ∈ events, ev.Clean) :
    let st : Store K := run (.new device owner chunker) events
    (∀ p f, st.getFile p = some f → f.author = device →
      ∃ e ∈ sealedEntries st.segments ++ st.index.log.pendingEntries, e.operation = .upsert p f) ∧
    (∀ p t, st.getTombstone p = some t → t.author = device →
      ∃ e ∈ sealedEntries st.segments ++ st.index.log.pendingEntries,
        e.operation = .remove p t.version) ∧
    (sealedEntries st.segments ++ st.index.log.pendingEntries).Nodup ∧
    (∀ e ∈ st.index.log.entries, ∀ f ∈ st.index.log.entries, e.sequence = f.sequence → e = f) ∧
    validateChain st.segments = .ok () := by
  intro st
  have hs : Sound owner device st := run_sound device owner chunker events
  have ha : Announced st := run_announced device owner chunker events hc
  refine ⟨fun p f hf _ => ?_, fun p t ht _ => ?_, log_in_order device owner chunker events⟩
  · have hrow := Store.getFile_eq_some.mp hf
    rcases ha p with h0 | ⟨e, he, hpath, hr⟩
    · rw [h0] at hrow
      cases hrow
    · refine ⟨e, he, ?_⟩
      rw [← hpath]
      exact LogEntry.operation_of_row_file (hr.symm.trans hrow)
  · have hrow := Store.row_of_getTombstone hs.apart ht
    rcases ha p with h0 | ⟨e, he, hpath, hr⟩
    · rw [h0] at hrow
      cases hrow
    · refine ⟨e, he, ?_⟩
      rw [← hpath]
      exact LogEntry.operation_of_row_gone (hr.symm.trans hrow)

/-- A day of one device: a write, a crash, a delete, a flush, another write. -/
def ordinaryDay : List Event :=
  [.call (.write "a".toList [.data [1, 2, 3]] 5), .crash ∅, .call (.remove "a".toList 6),
    .call (.flush 9), .call (.write "b".toList [] 7)]

theorem log_safe_ordinaryDay :
    let st : Store symbolic := run (.new 1 7 fourBytes) ordinaryDay
    (∃ f, st.getFile "b".toList = some f ∧ f.author = 1) ∧
    ∀ p f, st.getFile p = some f → f.author = 1 →
      ∃ e ∈ sealedEntries st.segments ++ st.index.log.pendingEntries, e.operation = .upsert p f :=
  ⟨⟨_, by rfl, by rfl⟩,
    (log_safe (K := symbolic) 1 7 fourBytes ordinaryDay (by decide)).1⟩

/-- A write torn by a crash: the entry is live and this device's own, and nothing is
pending and nothing sealed, so a flush after the restart seals nothing. -/
theorem torn_write_is_never_announced :
    let st : Store symbolic :=
      run (.new 1 7 fourBytes) [.torn (.write "a".toList [] 5) ∅]
    (∃ f, st.getFile "a".toList = some f ∧ f.author = 1) ∧
    (∀ e, e ∉ sealedEntries st.segments ++ st.index.log.pendingEntries) ∧
    ∀ id, st.flushSegment id = (st, .ok none) := by
  exact ⟨⟨_, by rfl, by rfl⟩, fun e he => List.not_mem_nil (a := e) he, fun _ => rfl⟩

end Crash

end Itsanas
