/-
# This device's own log

A device logs its operations under the sequence numbers 1, 2, 3, …: first as
pending rows, then sealed into the segments of its chain. `LogOk` is what holds of
the log tables at any time: the entries, sealed and pending, carry consecutive
numbers and the counter stands just above them, every segment opens, and the
chain validates up to its head. Logging one more operation keeps it
(`LogOk.pushPending`) and so does a flush, which seals exactly what was pending
(`LogOk.flush`).
-/
import Itsanas.Store

namespace Itsanas

variable {K : Crypto}

/-- Everything in a chain, oldest first. -/
def sealedEntries (chain : List (SegmentEnvelope K)) : List LogEntry :=
  chain.flatMap SegmentEnvelope.body

/-- Everything a device has logged: sealed, then pending. -/
def LogTables.entries (l : LogTables K) : List LogEntry :=
  sealedEntries l.chain ++ l.pendingEntries

/-- What holds of the log of `device`. -/
structure LogOk (owner : UserId) (device : DeviceId) (l : LogTables K) : Prop where
  positions : ∀ r ∈ l.segments.toList, r.1 < l.chainLength
  keys : ∀ r ∈ l.pending.toList, r.1 = r.2.sequence
  sequences : l.entries.map LogEntry.sequence = List.range' 1 l.entries.length
  counter : l.next = l.entries.length + 1
  opens : ∀ e ∈ l.chain, e.owner = owner ∧ e.device = device ∧ ∃ entries, e.openBody = .ok entries
  valid : validateChain l.chain = .ok ()
  ends : chainEnd none none l.chain =
    (l.headSegment, if l.chain = [] then none else some ((sealedEntries l.chain).length + 1))

namespace LogOk

variable {owner : UserId} {device : DeviceId} {l : LogTables K}

theorem new : LogOk owner device (.new : LogTables K) := by
  have hs : (.new : LogTables K).segments.toList = [] := rfl
  have hp : (.new : LogTables K).pending.toList = [] := rfl
  have hc : (.new : LogTables K).chain = [] := rfl
  have he : (.new : LogTables K).entries = [] := rfl
  refine ⟨by simp [hs], by simp [hp], by simp [he], by rw [he]; rfl, by simp [hc], by rw [hc]; rfl, ?_⟩
  rw [hc]
  rfl

variable {e : LogEntry}

/-- Every logged sequence number is between 1 and the number of entries. -/
theorem sequence_mem (h : LogOk owner device l) (he : e ∈ l.entries) :
    1 ≤ e.sequence ∧ e.sequence ≤ l.entries.length := by
  have hm : e.sequence ∈ l.entries.map LogEntry.sequence := List.mem_map_of_mem he
  rw [h.sequences, List.mem_range'_1] at hm
  omega

theorem sequence_lt_next (h : LogOk owner device l) (he : e ∈ l.entries) :
    e.sequence < l.next := by
  rw [h.counter]
  have := (h.sequence_mem he).2
  omega

/-- The numbers go up along the log. -/
theorem sequence_lt (h : LogOk owner device l) :
    l.entries.Pairwise fun e e' => e.sequence < e'.sequence := by
  rw [← List.pairwise_map, h.sequences]
  exact List.pairwise_lt_range'

/-- No two entries carry the same number. -/
theorem sequence_inj (h : LogOk owner device l) {e f : LogEntry} (he : e ∈ l.entries)
    (hf : f ∈ l.entries) (heq : e.sequence = f.sequence) : e = f := by
  have hn : (l.entries.map LogEntry.sequence).Nodup := by
    rw [h.sequences]
    exact List.nodup_range'
  exact List.inj_on_of_nodup_map hn he hf heq

theorem nodup (h : LogOk owner device l) : l.entries.Nodup := by
  have hn : (l.entries.map LogEntry.sequence).Nodup := by
    rw [h.sequences]
    exact List.nodup_range'
  exact hn.of_map

theorem pending_mem (h : LogOk owner device l) {r : ℕ × LogEntry} (hr : r ∈ l.pending.toList) :
    r.1 < l.next := by
  rw [h.keys r hr]
  refine h.sequence_lt_next (List.mem_append_right _ ?_)
  exact List.mem_map_of_mem hr

theorem pendingEntries_pushPending (h : LogOk owner device l)
    (he : e.sequence = l.next) : (l.pushPending e).pendingEntries = l.pendingEntries ++ [e] := by
  have hlast : ∀ r ∈ l.pending.toList, compare r.1 e.sequence = .lt := fun r hr => by
    rw [he]
    exact Nat.compare_eq_lt.mpr (h.pending_mem hr)
  unfold LogTables.pendingEntries LogTables.pushPending
  rw [Table.toList_insert_last hlast, List.map_append]
  rfl

theorem entries_pushPending (h : LogOk owner device l) (he : e.sequence = l.next) :
    (l.pushPending e).entries = l.entries ++ [e] := by
  show sealedEntries l.chain ++ (l.pushPending e).pendingEntries = _
  rw [h.pendingEntries_pushPending he, ← List.append_assoc]
  rfl

/-- **Logging one more operation, under the next number, keeps the log.** -/
theorem pushPending (h : LogOk owner device l) (he : e.sequence = l.next) :
    LogOk owner device (l.pushPending e) := by
  have hentries := h.entries_pushPending he
  have hseq : e.sequence = l.entries.length + 1 := he.trans h.counter
  refine ⟨h.positions, fun r hr => ?_, ?_, ?_, h.opens, h.valid, h.ends⟩
  · have hr' := Table.mem_toList.mp hr
    simp only [LogTables.pushPending, Table.getElem?_insert'] at hr'
    split_ifs at hr' with hk
    · rw [← Option.some.inj hr', hk]
    · exact h.keys r (Table.mem_toList.mpr hr')
  · rw [hentries, List.map_append, h.sequences, List.length_append, List.length_singleton,
      List.range'_concat]
    simp [hseq, Nat.add_comm]
  · rw [hentries, List.length_append, List.length_singleton]
    show max (e.sequence + 1) 1 = _
    omega

/-! ### Flushing -/

/-- The pending entries carry on where the sealed ones end. -/
theorem pending_sequences (h : LogOk owner device l) :
    l.pendingEntries.map LogEntry.sequence =
      List.range' ((sealedEntries l.chain).length + 1) l.pendingEntries.length := by
  have hs := h.sequences
  unfold LogTables.entries at hs
  rw [List.map_append, List.length_append, ← List.range'_append_1] at hs
  have hlen : ((sealedEntries l.chain).map LogEntry.sequence).length =
      (List.range' 1 (sealedEntries l.chain).length).length := by simp
  rw [(List.append_inj hs hlen).2, Nat.add_comm]

/-- A segment made of everything pending. -/
structure SealsPending (owner : UserId) (device : DeviceId) (l : LogTables K)
    (e : SegmentEnvelope K) : Prop where
  opens : e.openBody = .ok l.pendingEntries
  verifies : e.verifySignature = .ok ()
  owner : e.owner = owner
  device : e.device = device
  previous : e.previous = l.headSegment
  nonempty : l.pendingEntries ≠ []
  first : e.firstSequence = (sealedEntries l.chain).length + 1
  last : e.lastSequence = l.entries.length

variable {e : SegmentEnvelope K}

theorem sealsPending (h : LogOk owner device l) {id : ObjectId}
    (he : SegmentEnvelope.create owner device l.headSegment id l.pendingEntries = .ok e) :
    SealsPending owner device l e := by
  obtain ⟨hopen, hsig, -, howner, hdev, hprev, hfirst, hlast⟩ := SegmentEnvelope.openBody_create he
  have hseq := h.pending_sequences
  have hlen : l.entries.length = (sealedEntries l.chain).length + l.pendingEntries.length := by
    simp [LogTables.entries]
  rw [← List.head?_map, hseq, List.head?_range'] at hfirst
  rw [← List.getLast?_map, hseq, List.getLast?_range'] at hlast
  split_ifs at hfirst hlast with h0
  have h1 := Option.some.inj hfirst
  have h2 := Option.some.inj hlast
  refine ⟨hopen, hsig, howner, hdev, hprev, fun hnil => h0 (by simp [hnil]), h1.symm, ?_⟩
  omega

theorem chain_appended (h : LogOk owner device l) (e : SegmentEnvelope K) :
    (l.appended e).chain = l.chain ++ [e] := by
  show ((l.segments.insert l.chainLength e).toList.map Prod.snd : List (SegmentEnvelope K)) = _
  rw [Table.toList_insert_last (fun r hr => Nat.compare_eq_lt.mpr (h.positions r hr)),
    List.map_append]
  rfl

theorem pending_appended (h : LogOk owner device l)
    (he : SealsPending owner device l e) : (l.appended e).pending.toList = [] := by
  rw [List.eq_nil_iff_forall_not_mem]
  intro r hr
  have hr' := Table.mem_toList.mp hr
  simp only [LogTables.appended, LogTables.clearPending, Table.getElem?_foldl_erase] at hr'
  split_ifs at hr' with hout
  have hin : r ∈ l.pending.toList := Table.mem_toList.mpr hr'
  have hm : r.2.sequence ∈ l.pendingEntries.map LogEntry.sequence :=
    List.mem_map_of_mem (List.mem_map_of_mem hin)
  rw [h.pending_sequences, List.mem_range'_1, ← h.keys r hin] at hm
  have hlen : l.entries.length = (sealedEntries l.chain).length + l.pendingEntries.length := by
    simp [LogTables.entries]
  exact hout (by rw [List.mem_range'_1, he.first, he.last]; omega)

theorem entries_appended (h : LogOk owner device l)
    (he : SealsPending owner device l e) : (l.appended e).entries = l.entries := by
  unfold LogTables.entries LogTables.pendingEntries
  rw [h.chain_appended, h.pending_appended he]
  simp [sealedEntries, SegmentEnvelope.openBody_eq_body he.opens, LogTables.pendingEntries]

theorem chainEnd_append_singleton (xs : List (SegmentEnvelope K)) (e : SegmentEnvelope K) :
    ∀ (p : Option ObjectId) (q : Option ℕ),
      chainEnd p q (xs ++ [e]) = (some e.segmentId, some (e.lastSequence + 1)) := by
  induction xs with
  | nil => exact fun _ _ => rfl
  | cons x xs ih => exact fun p q => ih _ _

theorem validateChain_appended (h : LogOk owner device l)
    (he : SealsPending owner device l e) : validateChain (l.chain ++ [e]) = .ok () := by
  have hlink : linkError (chainEnd none none l.chain).1 (chainEnd none none l.chain).2 e = none := by
    unfold linkError
    rw [he.verifies, h.ends]
    by_cases hc : l.chain = []
    · simp only [hc, if_true]
      split <;> simp_all
    · simp only [hc, if_false]
      cases hh : l.headSegment with
      | none => rfl
      | some head => simp [he.previous, hh, he.first]
  refine (validateChain_append l.chain [e]).mpr ⟨h.valid, ?_⟩
  rw [validateFrom, hlink]
  rfl

/-- **A flush seals what was pending and keeps the log.** -/
theorem appended (h : LogOk owner device l)
    (he : SealsPending owner device l e) : LogOk owner device (l.appended e) := by
  have hentries := h.entries_appended he
  have hchain := h.chain_appended e
  refine ⟨fun r hr => ?_, fun r hr => ?_, ?_, ?_, ?_, ?_, ?_⟩
  · have hr' := Table.mem_toList.mp hr
    simp only [LogTables.appended, Table.getElem?_insert'] at hr'
    show r.1 < l.chainLength + 1
    split_ifs at hr' with hk
    · omega
    · have := h.positions r (Table.mem_toList.mpr hr')
      omega
  · rw [h.pending_appended he] at hr
    cases hr
  · rw [hentries, h.sequences]
  · rw [hentries]
    have hc := h.counter
    have hlast := he.last
    simp only [LogTables.next, LogTables.appended] at hc ⊢
    omega
  · rw [hchain]
    intro f hf
    rcases List.mem_append.mp hf with hf | hf
    · exact h.opens f hf
    · rw [List.mem_singleton.mp hf]
      exact ⟨he.owner, he.device, _, he.opens⟩
  · rw [hchain]
    exact h.validateChain_appended he
  · have hsealed : (sealedEntries (l.chain ++ [e])).length = l.entries.length := by
      simp [sealedEntries, LogTables.entries, SegmentEnvelope.openBody_eq_body he.opens]
    rw [hchain, chainEnd_append_singleton, hsealed, he.last]
    simp [LogTables.appended]

end LogOk

/-- What a flush does, given a log in order: nothing, or it seals everything
pending into one segment at the end of the chain. -/
theorem Store.flushSegment_spec {st : Store K} (h : LogOk st.owner st.device st.index.log)
    (id : ObjectId) :
    (st.index.log.pendingEntries = [] ∧ st.flushSegment id = (st, .ok none)) ∨
    ∃ e, LogOk.SealsPending st.owner st.device st.index.log e ∧
      st.flushSegment id = (st.withLog (st.index.log.appended e), .ok (some e)) := by
  unfold flushSegment
  cases hp : st.index.log.pendingEntries with
  | nil => exact Or.inl ⟨rfl, rfl⟩
  | cons first rest =>
    right
    have hseq := h.pending_sequences
    have hlast : (first :: rest).getLast? = some ((first :: rest).getLast (by simp)) :=
      List.getLast?_eq_getLast_of_ne_nil (by simp)
    have hle : first.sequence ≤ ((first :: rest).getLast (by simp)).sequence := by
      have hmem : ((first :: rest).getLast (by simp)).sequence ∈
          st.index.log.pendingEntries.map LogEntry.sequence := by
        rw [hp]
        exact List.mem_map_of_mem (List.getLast_mem _)
      rw [hseq, List.mem_range'_1] at hmem
      rw [hp, List.map_cons, List.length_cons, List.range'_succ, List.cons.injEq] at hseq
      omega
    obtain ⟨e, he⟩ := SegmentEnvelope.create_isOk (K := K) st.owner st.device
      st.index.log.headSegment id (first :: rest) rfl hlast hle
    have hs : LogOk.SealsPending st.owner st.device st.index.log e :=
      h.sealsPending (by rw [hp]; exact he)
    refine ⟨e, hs, ?_⟩
    simp only [he, LogTables.appendSegment, hs.previous, ne_eq, not_true, if_false]

end Itsanas
