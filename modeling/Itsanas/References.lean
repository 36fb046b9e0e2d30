/-
# The index keeps its books

Every operation of the store on the tree tables leaves them in agreement
(`FileTables.Accurate`): a chunk's count is the number of file slots that list
it, the unreferenced chunks are those whose count is a stored 0, a path is live
or deleted and never both, and the short queue holds only chunks with a row and
nothing at all while it is disarmed. A reference delta touches each chunk's
rows by itself (`slot_applyReferenceDelta`), so the argument is about one chunk
at a time: `Balanced` says what its three rows must be for a given number of
occurrences, and `Balanced.change` that a delta moves them with it.

The cached size follows the sum of the sizes as long as that sum fits a `u64`
(`Cached`).
-/
import Itsanas.Index

namespace Itsanas

variable {t : FileTables}

namespace FileTables

/-- How often `c` occurs in the chunk lists of the files. -/
def occurrences (t : FileTables) (c : ChunkId) : ℕ :=
  Table.total (fun e : FileEntry => e.chunks.count c) t.files

/-- The sum of the sizes of the files. -/
def sizeSum (t : FileTables) : ℕ := Table.total FileEntry.size t.files

/-- The rows a chunk with `n` occurrences may have. -/
structure Balanced (armed : Bool) (n : ℕ) (s : Option ℕ × Option ℕ × Option ℕ) : Prop where
  count : s.1.getD 0 = n
  unreferenced : s.2.1.isSome ↔ s.1 = some 0
  short : s.2.2.isSome → s.1.isSome
  disarmed : armed = false → s.2.2 = none

/-- No path is both live and deleted. -/
def Apart (t : FileTables) : Prop := ∀ p : Path, t.files[p]? = none ∨ t.tombstones[p]? = none

/-- The tables agree with each other. -/
structure Accurate (t : FileTables) : Prop where
  balanced : ∀ c, Balanced t.queueArmed (t.occurrences c) (t.slot c)
  apart : t.Apart

/-- The cached size, once computed, is the sum. -/
def Cached (t : FileTables) : Prop := ∀ total, t.localBytes = some total → total = t.sizeSum

/-! ### One chunk -/

theorem Balanced.empty (armed : Bool) : Balanced armed 0 (none, none, none) :=
  ⟨rfl, by simp, by simp, fun _ => rfl⟩

/-- A delta moves a chunk's rows along with its occurrences. -/
theorem Balanced.change {armed : Bool} {n m : ℕ} {s : Option ℕ × Option ℕ × Option ℕ} {change : ℤ}
    (h : Balanced armed n s) (ts : ℕ) (hm : (n : ℤ) + change = m) :
    Balanced armed m (changeSlot armed ts change s) := by
  obtain ⟨hc, hu, hs, hd⟩ := h
  unfold changeSlot
  by_cases h0 : change = 0
  · obtain rfl : n = m := by omega
    rw [if_pos h0]
    exact ⟨hc, hu, hs, hd⟩
  · have hupd : (((s.1.getD 0 : ℕ) : ℤ) + change).toNat = m := by omega
    simp only [h0, ite_false, hupd]
    refine ⟨rfl, ?_, fun _ => rfl, fun ha => ?_⟩
    · by_cases hz : m = 0 <;> simp [hz]
    · simp [ha, hd ha]

theorem getD_countChunks (step : ℤ) (c : ChunkId) : ∀ (chunks : List ChunkId) (d : Table ChunkId ℤ),
    ((countChunks step chunks d)[c]?).getD 0 = (d[c]?).getD 0 + step * chunks.count c
  | [], d => by simp [countChunks]
  | a :: chunks, d => by
    have ih := getD_countChunks step c chunks (d.insert a ((d[a]?).getD 0 + step))
    simp only [countChunks, List.foldl_cons] at ih ⊢
    rw [ih, Table.getElem?_insert', List.count_cons]
    by_cases h : a = c
    · subst h
      simp only [if_true, Option.getD_some, BEq.rfl]
      push_cast
      ring
    · simp [h]

/-! ### Changing an entry -/

theorem occurrences_insert (t : FileTables) (p : Path) (e : FileEntry) (c : ChunkId) :
    Table.total (fun e : FileEntry => e.chunks.count c) (t.files.insert p e) +
      (t.previousChunks p).count c = t.occurrences c + e.chunks.count c := by
  have h := Table.total_insert (fun e : FileEntry => e.chunks.count c) t.files p e
  unfold previousChunks occurrences
  cases hp : t.files[p]? <;> simp_all

theorem occurrences_erase {p : Path} {e : FileEntry} (h : t.files[p]? = some e)
    (c : ChunkId) : Table.total (fun e : FileEntry => e.chunks.count c) (t.files.erase p) +
      e.chunks.count c = t.occurrences c := by
  have ht := Table.total_erase (fun e : FileEntry => e.chunks.count c) t.files p
  rwa [h, Option.elim_some] at ht

@[simp] theorem files_applyReferenceDelta (t : FileTables) (delta : Table ChunkId ℤ) (ts : ℕ) :
    (t.applyReferenceDelta delta ts).1.files = t.files :=
  (applyReferenceDelta_sameTree t delta ts).1

@[simp] theorem tombstones_applyReferenceDelta (t : FileTables) (delta : Table ChunkId ℤ) (ts : ℕ) :
    (t.applyReferenceDelta delta ts).1.tombstones = t.tombstones :=
  (applyReferenceDelta_sameTree t delta ts).2.1

@[simp] theorem queueArmed_applyReferenceDelta (t : FileTables) (delta : Table ChunkId ℤ) (ts : ℕ) :
    (t.applyReferenceDelta delta ts).1.queueArmed = t.queueArmed :=
  (applyReferenceDelta_sameTree t delta ts).2.2.1

theorem files_putFile (t : FileTables) (p : Path) (e : FileEntry) (now : ℕ) :
    (t.putFile p e now).1.files = t.files.insert p e := by
  simp [putFile]

theorem tombstones_putFile (t : FileTables) (p : Path) (e : FileEntry) (now : ℕ) :
    (t.putFile p e now).1.tombstones = t.tombstones.erase p := by
  simp [putFile]

theorem queueArmed_putFile (t : FileTables) (p : Path) (e : FileEntry) (now : ℕ) :
    (t.putFile p e now).1.queueArmed = t.queueArmed := by
  simp [putFile]

theorem files_dropFile (t : FileTables) (p : Path) (now : ℕ) :
    (t.dropFile p now).1.files = t.files.erase p := by
  unfold dropFile
  cases h : t.files[p]? with
  | none => exact (Table.erase_eq_self h).symm
  | some e => simp

theorem tombstones_dropFile (t : FileTables) (p : Path) (now : ℕ) :
    (t.dropFile p now).1.tombstones = t.tombstones := by
  unfold dropFile
  cases t.files[p]? <;> simp

theorem queueArmed_dropFile (t : FileTables) (p : Path) (now : ℕ) :
    (t.dropFile p now).1.queueArmed = t.queueArmed := by
  unfold dropFile
  cases t.files[p]? <;> simp

theorem putFile_apart (h : t.Apart) (p : Path) (e : FileEntry) (now : ℕ) :
    (t.putFile p e now).1.Apart := by
  intro q
  rw [files_putFile, tombstones_putFile, Table.getElem?_insert', Table.getElem?_erase']
  split_ifs
  · exact Or.inr rfl
  · exact h q

theorem dropFile_apart (h : t.Apart) (p : Path) (now : ℕ) :
    (t.dropFile p now).1.Apart := by
  intro q
  rw [files_dropFile, tombstones_dropFile, Table.getElem?_erase']
  split_ifs
  · exact Or.inl rfl
  · exact h q

theorem removeFile_apart (h : t.Apart) (p : Path) (d : Tombstone) (now : ℕ) :
    (t.removeFile p d now).1.Apart := by
  intro q
  show (t.dropFile p now).1.files[q]? = none ∨ ((t.dropFile p now).1.tombstones.insert p d)[q]? = none
  rw [Table.getElem?_insert']
  split_ifs with hq
  · left
    rw [files_dropFile, Table.getElem?_erase', if_pos hq]
  · exact dropFile_apart h p now q

theorem putFile_accurate (h : t.Accurate) (p : Path) (e : FileEntry) (now : ℕ) :
    (t.putFile p e now).1.Accurate := by
  refine ⟨fun c => ?_, putFile_apart h.apart p e now⟩
  have hslot : (t.putFile p e now).1.slot c = changeSlot t.queueArmed now
      (((countChunks 1 e.chunks (countChunks (-1) (t.previousChunks p) ∅))[c]?).getD 0)
      (t.slot c) := slot_applyReferenceDelta t _ now c
  rw [hslot, queueArmed_putFile]
  refine (h.balanced c).change now ?_
  have hocc := occurrences_insert t p e c
  simp only [getD_countChunks, occurrences, files_putFile]
  simp only [occurrences] at hocc
  simp only [Std.ExtTreeMap.getElem?_empty, Option.getD_none]
  omega

theorem dropFile_accurate (h : t.Accurate) (p : Path) (now : ℕ) :
    (t.dropFile p now).1.Accurate := by
  refine ⟨fun c => ?_, dropFile_apart h.apart p now⟩
  cases hp : t.files[p]? with
  | none => simpa only [dropFile, hp] using h.balanced c
  | some e =>
    have hslot : (t.dropFile p now).1.slot c = changeSlot t.queueArmed now
        (((countChunks (-1) e.chunks ∅)[c]?).getD 0) (t.slot c) := by
      simp only [dropFile, hp]
      exact slot_applyReferenceDelta t _ now c
    rw [hslot, queueArmed_dropFile]
    refine (h.balanced c).change now ?_
    have hocc := occurrences_erase hp c
    simp only [getD_countChunks, occurrences, files_dropFile]
    simp only [occurrences] at hocc
    simp only [Std.ExtTreeMap.getElem?_empty, Option.getD_none]
    omega

theorem removeFile_accurate (h : t.Accurate) (p : Path) (d : Tombstone) (now : ℕ) :
    (t.removeFile p d now).1.Accurate :=
  ⟨(dropFile_accurate h p now).balanced, removeFile_apart h.apart p d now⟩

/-- What a dropped file leaves without an occurrence. -/
theorem occurrences_of_mem_dropped (h : t.Accurate) {p : Path} {now : ℕ} {c : ChunkId}
    (hc : c ∈ (t.dropFile p now).2) : (t.dropFile p now).1.occurrences c = 0 := by
  have hb := (dropFile_accurate h p now).balanced c
  cases hp : t.files[p]? with
  | none => simp [dropFile, hp] at hc
  | some e =>
    rw [← hb.count]
    simp only [dropFile, hp] at hc ⊢
    obtain ⟨hne, hz⟩ := (mem_dropped t _ now c).mp hc
    have hs := slot_applyReferenceDelta t (countChunks (-1) e.chunks ∅) now c
    have h1 := congrArg Prod.fst hs
    simp only [slot, changeSlot, hne, ite_false] at h1
    simp only [slot, h1, Option.getD_some]
    exact hz

/-! ### Forgetting chunks -/

theorem slot_releaseChunk (t : FileTables) (a c : ChunkId) :
    (t.releaseChunk a).slot c = if a = c then (none, none, none) else t.slot c := by
  simp only [slot, releaseChunk, Table.getElem?_erase']
  split_ifs <;> rfl

theorem releaseChunk_accurate (h : t.Accurate) {a : ChunkId}
    (ha : t.occurrences a = 0) : (t.releaseChunk a).Accurate := by
  refine ⟨fun c => ?_, h.apart⟩
  show Balanced t.queueArmed (t.occurrences c) ((t.releaseChunk a).slot c)
  rw [slot_releaseChunk]
  split_ifs with hc
  · subst hc
    rw [ha]
    exact Balanced.empty _
  · exact h.balanced c

/-- Forgetting chunks that no file lists keeps the books. -/
theorem foldl_releaseChunk_accurate : ∀ (cs : List ChunkId) {t : FileTables}, t.Accurate →
    (∀ c ∈ cs, t.occurrences c = 0) → (cs.foldl releaseChunk t).Accurate
  | [], _, h, _ => h
  | c :: cs, _, h, hz =>
    foldl_releaseChunk_accurate cs (releaseChunk_accurate h (hz c List.mem_cons_self))
      fun a ha => hz a (List.mem_cons_of_mem _ ha)

theorem foldl_releaseChunk_sameTree : ∀ (cs : List ChunkId) (t : FileTables),
    sameTree t (cs.foldl releaseChunk t)
  | [], _ => ⟨rfl, rfl, rfl, rfl⟩
  | c :: cs, t => foldl_releaseChunk_sameTree cs (t.releaseChunk c)

/-! ### The short queue -/

/-- A change to the queue alone keeps the books if what it queues has a row and
an idle queue stays empty. -/
theorem accurate_of_shortSince {t t' : FileTables} (h : t.Accurate) (hf : t'.files = t.files)
    (ht : t'.tombstones = t.tombstones) (hr : t'.chunkRefs = t.chunkRefs)
    (hu : t'.unreferenced = t.unreferenced)
    (hs : ∀ c : ChunkId, (t'.shortSince[c]?).isSome → (t.chunkRefs[c]?).isSome)
    (hd : t'.queueArmed = false → ∀ c : ChunkId, t'.shortSince[c]? = none) : t'.Accurate := by
  refine ⟨fun c => ?_, by unfold Apart; rw [hf, ht]; exact h.apart⟩
  obtain ⟨hc, hn, -, -⟩ := h.balanced c
  simp only [slot] at hc hn
  refine ⟨?_, ?_, ?_, fun ha => hd ha c⟩
  · simpa only [slot, occurrences, hr, hf] using hc
  · simpa only [slot, hr, hu] using hn
  · simpa only [slot, hr] using hs c

theorem Accurate.short (h : t.Accurate) (c : ChunkId)
    (hs : (t.shortSince[c]?).isSome) : (t.chunkRefs[c]?).isSome :=
  (h.balanced c).short hs

theorem Accurate.disarmed (h : t.Accurate) (ha : t.queueArmed = false) (c : ChunkId) :
    t.shortSince[c]? = none :=
  (h.balanced c).disarmed ha

theorem enqueueShort_accurate (h : t.Accurate) (chunks : List ChunkId) (now : ℕ) :
    (t.enqueueShort chunks now).Accurate := by
  refine List.foldlRecOn chunks _ h fun t h c _ => ?_
  split_ifs with hc
  · exact h
  · simp only [Bool.or_eq_true, Bool.not_eq_true', not_or, Bool.not_eq_false,
      Option.isNone_iff_eq_none] at hc
    refine accurate_of_shortSince h rfl rfl rfl rfl (fun a ha => ?_)
      fun hd => absurd hc.1 (by simp_all)
    rw [getElem?_insertNew] at ha
    split_ifs at ha with hn
    · rw [← hn.1]
      exact Option.isSome_iff_ne_none.mpr hc.2
    · exact h.short a ha

theorem settleShort_accurate (h : t.Accurate) (chunks : List ChunkId) :
    (t.settleShort chunks).Accurate := by
  refine accurate_of_shortSince h rfl rfl rfl rfl (fun c hc => ?_) fun ha c => ?_
  · simp only [settleShort, Table.getElem?_foldl_erase] at hc
    split_ifs at hc
    · simp at hc
    · exact h.short c hc
  · simp only [settleShort, Table.getElem?_foldl_erase]
    split_ifs
    · rfl
    · exact h.disarmed ha c

theorem setPlacementMeasured_accurate (h : t.Accurate) (measured : Bool) :
    (t.setPlacementMeasured measured).Accurate := by
  unfold setPlacementMeasured
  by_cases hsame : t.queueArmed = measured ∧ (measured = true ∨ t.shortSince.size = 0)
  · rw [if_pos hsame]
    exact h
  · rw [if_neg hsame]
    cases measured with
    | true =>
      exact accurate_of_shortSince h rfl rfl rfl rfl h.short fun ha => absurd ha (by simp)
    | false =>
      exact accurate_of_shortSince h rfl rfl rfl rfl (fun c hc => by simp at hc) fun _ c => by simp

/-! ### The cached size -/

theorem foldl_saturatingAdd : ∀ (sizes : List ℕ) (acc : ℕ), acc ≤ u64Max →
    sizes.foldl saturatingAdd acc = min (acc + sizes.sum) u64Max
  | [], acc, h => by simp [h]
  | s :: sizes, acc, _ => by
    have hs : saturatingAdd acc s ≤ u64Max := min_le_right _ _
    rw [List.foldl_cons, foldl_saturatingAdd sizes _ hs, List.sum_cons, saturatingAdd]
    omega

theorem putFile_cached (h : t.Cached) (p : Path) (e : FileEntry) (now : ℕ)
    (hfit : (t.putFile p e now).1.sizeSum ≤ u64Max) : (t.putFile p e now).1.Cached := by
  intro total ht
  have hsum : (t.putFile p e now).1.sizeSum + t.previousSize p = t.sizeSum + e.size := by
    rw [sizeSum, files_putFile]
    exact Table.total_insert FileEntry.size t.files p e
  have hprev : t.previousSize p ≤ t.sizeSum := by
    have := Table.total_erase FileEntry.size t.files p
    simp only [previousSize, sizeSum]
    omega
  obtain ⟨cached, hc, rfl⟩ := Option.map_eq_some_iff.mp ht
  rw [h cached hc, saturatingAdd, min_eq_left (by omega)]
  omega

theorem dropFile_cached (h : t.Cached) (p : Path) (now : ℕ) :
    (t.dropFile p now).1.Cached := by
  cases hp : t.files[p]? with
  | none => simpa only [dropFile, hp] using h
  | some e =>
    intro total ht
    have hsum : (t.dropFile p now).1.sizeSum + e.size = t.sizeSum := by
      have := Table.total_erase FileEntry.size t.files p
      rw [hp, Option.elim_some] at this
      rwa [sizeSum, files_dropFile]
    simp only [dropFile, hp] at ht
    obtain ⟨cached, hc, rfl⟩ := Option.map_eq_some_iff.mp ht
    rw [h cached hc]
    omega

theorem countLocalBytes_cached (h : t.Cached) (hfit : t.sizeSum ≤ u64Max) :
    t.countLocalBytes.1.Cached := by
  unfold countLocalBytes
  cases hl : t.localBytes with
  | some total => exact h
  | none =>
    intro total ht
    obtain rfl := Option.some.inj ht
    show (t.files.toList.map fun r => r.2.size).foldl saturatingAdd 0 = t.sizeSum
    rw [foldl_saturatingAdd _ 0 (Nat.zero_le _), Nat.zero_add]
    exact min_eq_left hfit

theorem cached_of_sameTree {t t' : FileTables} (h : t.Cached) (hs : sameTree t t') : t'.Cached := by
  obtain ⟨hf, -, -, hl⟩ := hs
  intro total ht
  rw [hl] at ht
  rw [sizeSum, hf]
  exact h total ht

end FileTables

/-! ### Runs -/

/-- What the store does to the tree tables. A release and a collection forget
chunk by chunk, each in a transaction of its own, and may stop part of the way. -/
inductive TreeOp
  | putFile (path : Path) (entry : FileEntry) (now : ℕ)
  | removeFile (path : Path) (tombstone : Tombstone) (now : ℕ)
  | release (path : Path) (now done : ℕ)
  | collect (cutoff done : ℕ)
  | enqueueShort (chunks : List ChunkId) (now : ℕ)
  | settleShort (chunks : List ChunkId)
  | setPlacementMeasured (measured : Bool)
  | countLocalBytes
  | reopen

namespace FileTables

/-- The chunks a collection takes: unreferenced since `cutoff` or earlier. -/
def collectable (t : FileTables) (cutoff : ℕ) : List ChunkId :=
  (t.unreferenced.toList.filter fun r => r.2 ≤ cutoff).map Prod.fst

theorem occurrences_of_mem_unreferenced (h : t.Accurate) {r : ChunkId × ℕ}
    (hr : r ∈ t.unreferenced.toList) : t.occurrences r.1 = 0 := by
  obtain ⟨a, since⟩ := r
  have hrow := Table.mem_toList.mp hr
  have hb := h.balanced a
  have hz : t.chunkRefs[a]? = some 0 := hb.unreferenced.mp (by simp only [slot]; rw [hrow]; rfl)
  have hcount := hb.count
  simp only [slot, hz, Option.getD_some] at hcount
  exact hcount.symm

end FileTables

namespace TreeOp

open FileTables

def apply (t : FileTables) : TreeOp → FileTables
  | putFile path entry now => (t.putFile path entry now).1
  | removeFile path tombstone now => (t.removeFile path tombstone now).1
  | release path now done =>
    let (t', dropped) := t.releaseFile path now
    (dropped.take done).foldl releaseChunk t'
  | collect cutoff done => ((t.collectable cutoff).take done).foldl releaseChunk t
  | enqueueShort chunks now => t.enqueueShort chunks now
  | settleShort chunks => t.settleShort chunks
  | setPlacementMeasured measured => t.setPlacementMeasured measured
  | countLocalBytes => t.countLocalBytes.1
  | reopen => t.reopen

def run (t : FileTables) (ops : List TreeOp) : FileTables := ops.foldl apply t

theorem occurrences_of_mem_collectable (h : t.Accurate) {cutoff : ℕ} {c : ChunkId}
    (hc : c ∈ t.collectable cutoff) : t.occurrences c = 0 := by
  obtain ⟨r, hr, rfl⟩ := List.mem_map.mp hc
  exact occurrences_of_mem_unreferenced h (List.mem_filter.mp hr).1

/-- **Every operation keeps the tables in agreement.** -/
theorem apply_accurate (h : t.Accurate) (op : TreeOp) : (apply t op).Accurate := by
  cases op with
  | putFile path entry now => exact putFile_accurate h path entry now
  | removeFile path tombstone now => exact removeFile_accurate h path tombstone now
  | release path now done =>
    exact foldl_releaseChunk_accurate _ (dropFile_accurate h path now) fun c hc =>
      occurrences_of_mem_dropped h (List.mem_of_mem_take hc)
  | collect cutoff done =>
    exact foldl_releaseChunk_accurate _ h fun c hc =>
      occurrences_of_mem_collectable h (List.mem_of_mem_take hc)
  | enqueueShort chunks now => exact enqueueShort_accurate h chunks now
  | settleShort chunks => exact settleShort_accurate h chunks
  | setPlacementMeasured measured => exact setPlacementMeasured_accurate h measured
  | countLocalBytes =>
    show t.countLocalBytes.1.Accurate
    unfold FileTables.countLocalBytes
    split <;> exact ⟨h.balanced, h.apart⟩
  | reopen => exact ⟨h.balanced, h.apart⟩

theorem enqueueShort_sameTree (t : FileTables) (chunks : List ChunkId) (now : ℕ) :
    sameTree t (t.enqueueShort chunks now) := by
  refine List.foldlRecOn (motive := sameTree t) chunks _ ⟨rfl, rfl, rfl, rfl⟩ fun t' h c _ => ?_
  split_ifs
  · exact h
  · exact h

/-- **Every operation keeps the cached size the sum, if the new sum fits.** -/
theorem apply_cached (h : t.Cached) (op : TreeOp)
    (hfit : (apply t op).sizeSum ≤ u64Max) : (apply t op).Cached := by
  cases op with
  | putFile path entry now => exact putFile_cached h path entry now hfit
  | removeFile path tombstone now => exact dropFile_cached h path now
  | release path now done =>
    exact cached_of_sameTree (dropFile_cached h path now) (foldl_releaseChunk_sameTree _ _)
  | collect cutoff done => exact cached_of_sameTree h (foldl_releaseChunk_sameTree _ _)
  | enqueueShort chunks now => exact cached_of_sameTree h (enqueueShort_sameTree t chunks now)
  | settleShort chunks => exact h
  | setPlacementMeasured measured =>
    show (t.setPlacementMeasured measured).Cached
    unfold FileTables.setPlacementMeasured
    split <;> exact h
  | countLocalBytes =>
    refine countLocalBytes_cached h ?_
    convert hfit using 1
    show t.sizeSum = t.countLocalBytes.1.sizeSum
    unfold FileTables.countLocalBytes
    split <;> rfl
  | reopen => exact fun total ht => by cases ht

theorem new_accurate : FileTables.new.Accurate :=
  ⟨fun _ => Balanced.empty _, fun _ => Or.inl rfl⟩

theorem run_accurate (ops : List TreeOp) : (run .new ops).Accurate :=
  List.foldlRecOn ops _ new_accurate fun _ h op _ => apply_accurate h op

theorem run_cached (ops : List TreeOp)
    (hfit : ∀ earlier, earlier <+: ops → (run .new earlier).sizeSum ≤ u64Max) :
    (run .new ops).Cached := by
  induction ops using List.reverseRecOn with
  | nil => exact fun total ht => by cases ht
  | append_singleton ops op ih =>
    have h := ih fun earlier he => hfit earlier (he.trans (List.prefix_append _ _))
    have hlast := hfit (ops ++ [op]) List.prefix_rfl
    rw [run, List.foldl_append] at hlast ⊢
    exact apply_cached h op hlast

/-- **The index keeps its books.** After any run of the store's operations on
the tree tables: counts are occurrences, the unreferenced chunks are those with
a row of 0, no path is both live and deleted, queued chunks have a row and a
disarmed queue is empty; and the cached size is the sum of the sizes, as long as
that sum has fitted a `u64`. -/
theorem run_keeps_books (ops : List TreeOp) :
    let t := run .new ops
    (∀ c : ChunkId, (t.chunkRefs[c]?).getD 0 = Table.total (fun e => e.chunks.count c) t.files) ∧
    (∀ c : ChunkId, (t.unreferenced[c]?).isSome ↔ t.chunkRefs[c]? = some 0) ∧
    (∀ p : Path, t.files[p]? = none ∨ t.tombstones[p]? = none) ∧
    (∀ c : ChunkId, (t.shortSince[c]?).isSome → (t.chunkRefs[c]?).isSome) ∧
    (t.queueArmed = false → t.shortSince = ∅) ∧
    ((∀ earlier, earlier <+: ops →
        Table.total FileEntry.size (run .new earlier).files ≤ u64Max) →
      ∀ total, t.localBytes = some total → total = Table.total FileEntry.size t.files) := by
  have h := run_accurate ops
  refine ⟨fun c => (h.balanced c).count, fun c => (h.balanced c).unreferenced, h.apart, h.short,
    fun ha => ?_, run_cached ops⟩
  refine Std.ExtTreeMap.ext_getElem? fun c => ?_
  rw [h.disarmed ha c, Std.ExtTreeMap.getElem?_empty]

end TreeOp

end Itsanas
