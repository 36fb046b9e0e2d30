/-
# Letting a local copy go

`Store::release` of `itsanas-store/src/store.rs` destroys the bytes of a file's chunks on
the evidence of `Index::holder_evidence`, while what repair takes for a copy is counted by
`Index::under_replicated`. Both walk the records of a chunk, with different exclusions: a
draining device is no copy to repair, and still is evidence for a release. So a release
is safe exactly when no chunk it deletes has its two proved holders only by counting one
that is draining (`Store.release_safe_iff`), and two machines are enough to see that it
is not always (`Store.release_on_draining_holder`).
-/
import Itsanas.Holders
import Itsanas.Symbolic

namespace Itsanas

/-! ### The evidence -/

variable {now : ℕ}

namespace Ledger

/-- `device` passed an audit and was seen lately. -/
def Proved (l : Ledger) (device : DeviceId) (now : ℕ) : Prop :=
  0 < (l.reliability[device]?).elim 0 Reliability.passed ∧
    now - liveFor ≤ (l.deviceSeen[device]?).getD 0

/-- The proved holders of `chunk`, by device. -/
def provedHolders (l : Ledger) (chunk : ChunkId) (now : ℕ) : List DeviceId :=
  ((l.holdersOf chunk).filter (l.provedRecord now)).map Prod.fst

variable {l : Ledger}

theorem provedRecord_iff {r : DeviceId × ℕ} :
    l.provedRecord now r = true ↔ l.Proved r.1 now ∧ now - liveFor ≤ r.2 := by
  rw [provedRecord, Proved, decide_eq_true_eq, and_assoc]

/-- A proved record is of a device heard from within the longer window too. -/
theorem not_lt_of_proved {r : DeviceId × ℕ} (h : l.provedRecord now r = true) :
    ¬(l.deviceSeen[r.1]?).getD 0 < now - confirmedFor := by
  have hwindow : now - confirmedFor ≤ now - liveFor :=
    Nat.sub_le_sub_left (by norm_num [liveFor, refreshAfter, confirmedFor]) now
  exact not_lt.mpr (hwindow.trans (provedRecord_iff.mp h).1.2)

theorem proved_addEvidence (l : Ledger) (now : ℕ) (e : HolderEvidence) (r : DeviceId × ℕ) :
    (l.addEvidence now e r).proved = e.proved + if l.provedRecord now r then 1 else 0 := by
  by_cases hseen : (l.deviceSeen[r.1]?).getD 0 < now - confirmedFor
  · have hunproved : ¬l.provedRecord now r = true := fun h => not_lt_of_proved h hseen
    have hskip : l.addEvidence now e r = e := by
      unfold addEvidence
      exact if_pos hseen
    rw [hskip, if_neg hunproved, Nat.add_zero]
  · have hcount : l.addEvidence now e r =
        ⟨e.live + 1, if now - confirmedFor ≤ r.2 then e.fresh + 1 else e.fresh,
          if l.provedRecord now r then e.proved + 1 else e.proved⟩ := by
      unfold addEvidence
      exact if_neg hseen
    rw [hcount]
    dsimp only
    split_ifs <;> rfl

/-- What the evidence counts as proved is the proved holders. -/
theorem proved_holderEvidence (l : Ledger) (chunk : ChunkId) (now : ℕ) :
    (l.holderEvidence chunk now).proved = (l.provedHolders chunk now).length := by
  -- the walk starts from any evidence
  have hwalk : ∀ (rows : List (DeviceId × ℕ)) (e : HolderEvidence),
      (rows.foldl (l.addEvidence now) e).proved = e.proved + rows.countP (l.provedRecord now) := by
    intro rows
    induction rows with
    | nil => exact fun e => rfl
    | cons r rest ih =>
      intro e
      rw [List.foldl_cons, ih, proved_addEvidence, List.countP_cons]
      omega
  rw [holderEvidence, hwalk, provedHolders, List.length_map, ← List.countP_eq_length_filter,
    Nat.zero_add]

theorem mem_holdersOf {chunk : ChunkId} {device : DeviceId} {stamp : ℕ} :
    (device, stamp) ∈ l.holdersOf chunk ↔ l.holders[key chunk device]? = some stamp := by
  unfold holdersOf
  simp only [List.mem_map, List.mem_filter, decide_eq_true_eq, Prod.mk.injEq]
  constructor
  · rintro ⟨r, ⟨hr, rfl⟩, rfl, rfl⟩
    exact Table.mem_toList.mp hr
  · intro h
    exact ⟨(key chunk device, stamp), ⟨Table.mem_toList.mpr h, rfl⟩, rfl, rfl⟩

theorem nodup_provedHolders (l : Ledger) (chunk : ChunkId) (now : ℕ) :
    (l.provedHolders chunk now).Nodup := by
  refine List.Nodup.map_on ?_ (List.Nodup.filter _ ?_)
  · rintro ⟨d, s⟩ hd ⟨d', s'⟩ hd' rfl
    have h := mem_holdersOf.mp (List.mem_filter.mp hd).1
    have h' := mem_holdersOf.mp (List.mem_filter.mp hd').1
    rw [h] at h'
    exact Prod.ext rfl (Option.some.inj h')
  · refine List.Nodup.map_on ?_ ((Table.nodup_toList _).filter _)
    rintro ⟨k, s⟩ hk ⟨k', s'⟩ hk' h
    simp only [List.mem_filter, decide_eq_true_eq, Prod.mk.injEq] at hk hk' h
    exact Prod.ext (Prod.ext (hk.2.trans hk'.2.symm) h.1) h.2

/-- A proved holder counts as a copy unless it is draining. -/
theorem mem_provedHolders {chunk : ChunkId} {device : DeviceId} :
    device ∈ l.provedHolders chunk now ∧ l.drainingAt device now = false ↔
      device ∈ l.copies chunk now ∧ l.Proved device now := by
  simp only [provedHolders, copies, List.mem_map, List.mem_filter, decide_eq_true_eq, Bool.not_eq_true,
    provedRecord_iff]
  constructor
  · rintro ⟨⟨r, ⟨hr, hp, hs⟩, rfl⟩, hd⟩
    exact ⟨⟨r, ⟨hr, hd, hs⟩, rfl⟩, hp⟩
  · rintro ⟨⟨r, ⟨hr, hd, hs⟩, rfl⟩, hp⟩
    exact ⟨⟨r, ⟨hr, hp, hs⟩, rfl⟩, hd⟩

end Ledger

/-! ### What a release deletes -/

namespace Store

variable {K : Crypto}

/-- The chunks of `entry` that its release leaves without a reference. -/
def lastOf (st : Store K) (entry : FileEntry) : List ChunkId :=
  entry.chunks.filter fun c => (st.tree.chunkRefs[c]?).getD 0 ≤ entry.chunks.count c

theorem unsafeChunk_eq_none {st : Store K} {entry : FileEntry} :
    st.unsafeChunk entry now = none ↔ ∀ c ∈ st.lastOf entry,
      Ledger.safeToRelease ≤ (st.index.ledger.holderEvidence c now).proved ∧
        (st.index.ledger.holderEvidence c now).fresh ≠ 0 := by
  unfold unsafeChunk lastOf
  rw [List.findSome?_eq_none_iff]
  simp only [List.mem_filter, decide_eq_true_eq, and_imp]
  refine forall₂_congr fun c _ => ?_
  by_cases hown : entry.chunks.count c < (st.tree.chunkRefs[c]?).getD 0
  · have hnot : ¬ (st.tree.chunkRefs[c]?).getD 0 ≤ entry.chunks.count c := by omega
    simp [hown, hnot]
  · have hle : (st.tree.chunkRefs[c]?).getD 0 ≤ entry.chunks.count c := by omega
    simp only [if_neg hown, hle, forall_const, ite_eq_right_iff, reduceCtorEq, imp_false, not_or,
      not_lt, ne_eq]

/-- The chunks dropped with a file are the ones it was the last to list. -/
theorem mem_releaseFile {st : Store K} {path : Path} {entry : FileEntry}
    (h : st.getFile path = some entry)
    (now : ℕ) (c : ChunkId) : c ∈ (st.tree.releaseFile path now).2 ↔ c ∈ st.lastOf entry := by
  have hfile : st.tree.files[path]? = some entry := h
  simp only [FileTables.releaseFile, FileTables.dropFile, hfile]
  rw [FileTables.mem_dropped, FileTables.getD_countChunks, Std.ExtTreeMap.getElem?_empty, lastOf,
    List.mem_filter, ← List.count_pos_iff]
  simp only [Option.getD_none, decide_eq_true_eq]
  omega

theorem foldl_releaseChunk (c : ChunkId) : ∀ (dropped : List ChunkId) (acc : Store K × ℕ × ℕ),
    (dropped.foldl releaseChunk acc).1.tree.files = acc.1.tree.files ∧
      (dropped.foldl releaseChunk acc).1.blobs[c]? = if c ∈ dropped then none else acc.1.blobs[c]?
  | [], acc => by simp
  | a :: rest, acc => by
    obtain ⟨hfiles, hblobs⟩ := foldl_releaseChunk c rest (releaseChunk acc a)
    obtain ⟨st, chunks, bytes⟩ := acc
    have hstep : (releaseChunk (st, chunks, bytes) a).1.tree.files = st.tree.files ∧
        (releaseChunk (st, chunks, bytes) a).1.blobs[c]? = if a = c then none else st.blobs[c]? := by
      unfold releaseChunk
      dsimp only
      cases hb : st.blobs[a]? with
      | none =>
        refine ⟨rfl, ?_⟩
        split_ifs with hac
        · rw [← hac]
          exact hb
        · rfl
      | some sealed => exact ⟨rfl, Table.getElem?_erase' _ _ _⟩
    refine ⟨hfiles.trans hstep.1, ?_⟩
    rw [List.foldl_cons, hblobs, hstep.2]
    by_cases hac : a = c
    · simp [hac]
    · simp [hac, Ne.symm hac]

/-- What a release does: nothing, or it takes the file out and the bytes of the chunks
this file was the last to list. -/
theorem release_outcome (st : Store K) (path : Path) (now : ℕ) :
    ((st.release path now).1 = st ∧ ∀ entry, validate path = .ok () → st.getFile path = some entry →
      st.unsafeChunk entry now ≠ none) ∨
    ∃ entry chunks bytes, validate path = .ok () ∧ st.getFile path = some entry ∧
      st.unsafeChunk entry now = none ∧ (st.release path now).2 = .ok (.gone chunks bytes) ∧
      (st.release path now).1.tree.files = st.tree.files.erase path ∧
      ∀ c : ChunkId, (st.release path now).1.blobs[c]? =
        if c ∈ st.lastOf entry then none else st.blobs[c]? := by
  unfold release
  cases hv : validate path with
  | error error => exact .inl ⟨rfl, fun _ h => nomatch h⟩
  | ok u =>
    cases hf : st.getFile path with
    | none => exact .inl ⟨rfl, fun _ _ h => nomatch h⟩
    | some entry =>
      dsimp only
      cases hu : st.unsafeChunk entry now with
      | some found =>
        refine .inl ⟨rfl, fun entry' _ h => ?_⟩
        rw [← Option.some.inj h, hu]
        exact Option.some_ne_none _
      | none =>
        have hfold := fun c => foldl_releaseChunk c (st.tree.releaseFile path now).2
          (st.withTree (st.tree.releaseFile path now).1, 0, 0)
        refine .inr ⟨entry, _, _, rfl, rfl, hu, rfl, ?_, fun c => ?_⟩
        · rw [(hfold 0).1]
          exact FileTables.files_dropFile st.tree path now
        · rw [(hfold c).2, if_congr (mem_releaseFile hf now c) rfl rfl]
          rfl

/-! ### When a release is safe -/

/-- What a release should never break: bytes go only if no file left lists them and enough
other devices that are proved count as copies to repair as well, and a refusal leaves
everything as it was. -/
structure SafeRelease (st : Store K) (path : Path) (now : ℕ) : Prop where
  deleted : ∀ c, c ∈ st.blobs → c ∉ (st.release path now).1.blobs →
    (∀ q f, (st.release path now).1.getFile q = some f → c ∉ f.chunks) ∧
    ∃ devices : Finset DeviceId, Ledger.safeToRelease ≤ devices.card ∧ ∀ d ∈ devices,
      d ≠ st.device ∧ d ∈ st.index.ledger.copies c now ∧ st.index.ledger.Proved d now
  refused : (st.release path now).2 = .ok .notHere ∨
    (∃ c evidence, (st.release path now).2 = .ok (.notSafeYet c evidence)) →
    (st.release path now).1 = st

/-- The proved holders of `c` that are no copies elsewhere: the draining ones, and this
device if it were recorded. -/
def discounted (st : Store K) (c : ChunkId) (now : ℕ) : List DeviceId :=
  (st.index.ledger.provedHolders c now).filter fun d =>
    st.index.ledger.drainingAt d now || decide (d = st.device)

/-- There are enough copies elsewhere exactly if enough proved holders are left without
the discounted ones. -/
theorem copies_iff_discounted (st : Store K) (c : ChunkId) (now : ℕ) :
    (∃ devices : Finset DeviceId, Ledger.safeToRelease ≤ devices.card ∧ ∀ d ∈ devices,
      d ≠ st.device ∧ d ∈ st.index.ledger.copies c now ∧ st.index.ledger.Proved d now) ↔
    Ledger.safeToRelease + (st.discounted c now).length ≤
      (st.index.ledger.holderEvidence c now).proved := by
  set l := st.index.ledger
  set counted := (l.provedHolders c now).filter fun d =>
    !(l.drainingAt d now || decide (d = st.device)) with hcounted
  have hsplit : (l.holderEvidence c now).proved = (st.discounted c now).length + counted.length := by
    rw [l.proved_holderEvidence]
    exact (List.length_eq_length_filter_add _)
  have hnodup : counted.Nodup := (l.nodup_provedHolders c now).filter _
  have hmem : ∀ d, d ∈ counted ↔ d ≠ st.device ∧ d ∈ l.copies c now ∧ l.Proved d now := by
    intro d
    rw [hcounted, List.mem_filter, ← Ledger.mem_provedHolders]
    simp only [Bool.not_eq_true', Bool.or_eq_false_iff, decide_eq_false_iff_not]
    tauto
  constructor
  · rintro ⟨devices, hcard, hdev⟩
    have hsub : devices ⊆ counted.toFinset := fun d hd =>
      List.mem_toFinset.mpr ((hmem d).mpr (hdev d hd))
    have hle := Finset.card_le_card hsub
    rw [List.toFinset_card_of_nodup hnodup] at hle
    omega
  · intro hle
    refine ⟨counted.toFinset, ?_, fun d hd => (hmem d).mp (List.mem_toFinset.mp hd)⟩
    rw [List.toFinset_card_of_nodup hnodup]
    omega

/-- **When letting a copy go is safe.** Exactly if, whenever the evidence lets the release
through, each chunk it deletes bytes of is listed by no other file, which right counts
see to, and has two proved holders besides those that are draining. -/
theorem release_safe_iff (st : Store K) (path : Path) (now : ℕ) :
    st.SafeRelease path now ↔
      ∀ entry, validate path = .ok () → st.getFile path = some entry →
        (∀ c ∈ st.lastOf entry,
          Ledger.safeToRelease ≤ (st.index.ledger.holderEvidence c now).proved ∧
            (st.index.ledger.holderEvidence c now).fresh ≠ 0) →
        ∀ c ∈ st.lastOf entry, c ∈ st.blobs →
          (∀ q ≠ path, ∀ f, st.getFile q = some f → c ∉ f.chunks) ∧
          Ledger.safeToRelease + (st.discounted c now).length ≤
            (st.index.ledger.holderEvidence c now).proved := by
  constructor
  · intro hsafe entry hv hf hready c hc hblob
    obtain ⟨-, hno⟩ | ⟨entry', chunks, bytes, -, hf', -, -, hfiles, hblobs⟩ :=
      st.release_outcome path now
    · exact absurd (unsafeChunk_eq_none.mpr hready) (hno entry hv hf)
    · obtain rfl : entry = entry' := Option.some.inj (hf.symm.trans hf')
      have hgone : c ∉ (st.release path now).1.blobs := by
        rw [Std.ExtTreeMap.mem_iff_isSome_getElem?, hblobs, if_pos hc]
        exact Bool.false_ne_true
      obtain ⟨hlisted, hcopies⟩ := hsafe.deleted c hblob hgone
      refine ⟨fun q hq f hqf => hlisted q f ?_, (st.copies_iff_discounted c now).mp hcopies⟩
      rw [getFile, hfiles, Table.getElem?_erase_ne _ (Ne.symm hq)]
      exact hqf
  · intro hcond
    obtain ⟨hsame, -⟩ | ⟨entry, chunks, bytes, hv, hf, hu, hgone, hfiles, hblobs⟩ :=
      st.release_outcome path now
    · refine ⟨fun c hc hnot => ?_, fun _ => hsame⟩
      rw [hsame] at hnot
      exact absurd hc hnot
    · refine ⟨fun c hc hnot => ?_, fun h => ?_⟩
      · have hlast : c ∈ st.lastOf entry := by
          by_contra hkeep
          rw [Std.ExtTreeMap.mem_iff_isSome_getElem?, hblobs, if_neg hkeep] at hnot
          exact hnot (Std.ExtTreeMap.mem_iff_isSome_getElem?.mp hc)
        obtain ⟨hlisted, hle⟩ := hcond entry hv hf (unsafeChunk_eq_none.mp hu) c hlast hc
        refine ⟨fun q f hqf => ?_, (st.copies_iff_discounted c now).mpr hle⟩
        rw [getFile, hfiles, Table.getElem?_erase'] at hqf
        split_ifs at hqf with hq
        exact hlisted q (Ne.symm hq) f hqf
      · rw [hgone] at h
        rcases h with h | ⟨c, e, h⟩ <;> simp at h

/-! ### A draining holder -/

/-- A device with one file of two bytes, whose chunk two others accepted and proved. One
of these says it is draining. -/
def leaning : Store symbolic :=
  let st := ((Store.new (K := symbolic) 1 9 fourBytes).writeStream "a".toList [.data [1, 2]] 1000000).1
  let chunk := digitsId [1, 2]
  let stored := (st.index.recordStored [chunk] 2 1000000).recordStored [chunk] 3 1000000
  let audited := ((stored.noteAudit 2 true 1000000).1.noteAudit 3 true 1000000).1
  { st with index := (audited.noteDraining 3 1003600 1000000).1 }

/-- Repair counts this disk and one device, and the release still deletes the bytes. -/
theorem release_on_draining_holder :
    leaning.index.underReplicated 3 1000000 = [⟨digitsId [1, 2], 2, 3⟩] ∧
    leaning.index.ledger.copies (digitsId [1, 2]) 1000000 = [2] ∧
    (leaning.release "a".toList 1000000).2 = .ok (.gone 1 2) ∧
    ¬leaning.SafeRelease "a".toList 1000000 := by
  have hcopies : leaning.index.ledger.copies (digitsId [1, 2]) 1000000 = [2] := by decide +kernel
  refine ⟨by decide +kernel, hcopies, by decide +kernel, fun hsafe => ?_⟩
  obtain ⟨-, devices, hcard, hdev⟩ :=
    hsafe.deleted (digitsId [1, 2]) (by decide +kernel) (by decide +kernel)
  have hsub : devices ⊆ {2} := by
    intro d hd
    have hmem := (hdev d hd).2.1
    rw [hcopies] at hmem
    simpa using hmem
  have hle := Finset.card_le_card hsub
  rw [Finset.card_singleton] at hle
  exact absurd (hcard.trans hle) (by decide)

end Store

end Itsanas
