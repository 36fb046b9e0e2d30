/-
# A store is a map from paths to bytes

Chunks are shared between files and within one, a refused write takes its own
blobs back, removing only drops counts, and blobs are deleted later. What a caller
sees of all that is a map: `readFile` returns what was last accepted at a path.
`Contents.run` carries that map along with the store, changing it only where a
call says it accepted something, and `Keeps` relates the two: every live entry
describes the bytes the map has, every chunk it lists is on disk, and every blob
on disk is what its address says. The counts being exact (`Accurate`) is what
keeps a release or a collection from deleting a chunk that some file lists.

Addresses are 32 bytes, so they cannot be injective on all byte strings. What is
assumed is that they are on a set `S` of strings (`CollisionFree`) that the pieces
written, the pieces of what is adopted and the chunks that sources serve all lie in.
-/
import Itsanas.Local
import Itsanas.Symbolic

namespace Itsanas

open Walk

variable {K : Crypto} {S : Set Bytes}

/-- No two byte strings of `S` have one address. -/
def CollisionFree (K : Crypto) (S : Set Bytes) : Prop := Set.InjOn K.chunkId S

/-- The entry is that of `bytes`, cut into pieces of `S`. -/
structure Describes (K : Crypto) (S : Set Bytes) (f : FileEntry) (bytes : Bytes) : Prop where
  pieces : ∃ ps : List Bytes, (∀ x ∈ ps, x ∈ S) ∧ f.chunks = ps.map K.chunkId ∧ ps.flatten = bytes
  size : f.size = bytes.length
  hash : f.contentHash = K.contentHash bytes

/-- Every blob opens to a string of `S` that its address is of. -/
def Genuine (K : Crypto) (S : Set Bytes) (blobs : Table ChunkId Bytes) : Prop :=
  ∀ (c : ChunkId) (sealed : Bytes), blobs[c]? = some sealed →
    ∃ x ∈ S, K.openChunk c sealed = some x ∧ K.chunkId x = c

/-- What the source serves, and is the chunk it is said to be, is in `S`. -/
def Serves (K : Crypto) (S : Set Bytes) (source : ChunkSource) : Prop :=
  ∀ n owner c sealed x, source.fetch n owner c = .ok (some sealed) →
    K.openChunk c sealed = some x → K.chunkId x = c → x ∈ S

/-- Every one of `chunks` is on disk. -/
def Covers (blobs : Table ChunkId Bytes) (chunks : List ChunkId) : Prop :=
  ∀ c ∈ chunks, (blobs[c]?).isSome

/-- The store holds the contents `m`. -/
structure Keeps (S : Set Bytes) (st : Store K) (m : Path → Option Bytes) : Prop where
  tree : st.tree.Accurate
  genuine : Genuine K S st.blobs
  covered : ∀ p f, st.getFile p = some f → Covers st.blobs f.chunks
  absent : ∀ p, m p = none → st.getFile p = none
  present : ∀ p b, m p = some b → ∃ f, st.getFile p = some f ∧ Describes K S f b

variable {st : Store K} {p : Path}

theorem Keeps.contents_none {m : Path → Option Bytes} (h : Keeps S st m)
    (hp : st.getFile p = none) : m p = none := by
  by_contra hm
  obtain ⟨b, hb⟩ := Option.ne_none_iff_exists'.mp hm
  obtain ⟨f, hf, -⟩ := h.present p b hb
  rw [hp] at hf
  cases hf

/-! ### Reading -/

variable {blobs : Table ChunkId Bytes}

theorem readChunks_pieces (hS : CollisionFree K S)
    (hg : Genuine K S blobs) : ∀ ps : List Bytes, (∀ x ∈ ps, x ∈ S) →
      Covers blobs (ps.map K.chunkId) → Store.readChunks K blobs (ps.map K.chunkId) = .ok ps.flatten
  | [], _, _ => rfl
  | x :: ps, hin, hc => by
    obtain ⟨sealed, hs⟩ := Option.isSome_iff_exists.mp (hc (K.chunkId x) (by simp))
    obtain ⟨y, hin', ho, hy⟩ := hg _ _ hs
    obtain rfl := hS hin' (hin x List.mem_cons_self) hy
    have ih := readChunks_pieces hS hg ps (fun z hz => hin z (List.mem_cons_of_mem _ hz))
      fun c h => hc c (List.mem_cons_of_mem _ h)
    rw [List.map_cons, Store.readChunks, hs]
    simp only [ho, ih]
    rfl

/-- **What a store keeps can be read.** -/
theorem Keeps.readFile (hS : CollisionFree K S)
    {m : Path → Option Bytes} (h : Keeps S st m) (hv : validate p = .ok ()) :
    st.readFile p = .ok (m p) := by
  unfold Store.readFile
  rw [hv]
  cases hm : m p with
  | none => rw [h.absent p hm]
  | some b =>
    obtain ⟨f, hf, ⟨ps, hin, hchunks, rfl⟩, hsize, hhash⟩ := h.present p b hm
    have hcov := h.covered p f hf
    rw [hchunks] at hcov
    rw [hf]
    simp only [hchunks, readChunks_pieces hS h.genuine ps hin hcov, hsize, hhash, ne_eq, not_true,
      if_false]

/-! ### Blobs coming in -/

theorem getElem?_putBlob (blobs : Table ChunkId Bytes) (a c : ChunkId) (sealed : Bytes) :
    (putBlob blobs a sealed).1[c]? =
      if blobs[a]? = none ∧ a = c then some sealed else blobs[c]? := by
  unfold putBlob
  cases ha : blobs[a]? with
  | none => simp [Table.getElem?_insert']
  | some s => simp

/-- What storing and fetching chunks keeps: blobs stay what they are said to be, and
none goes. -/
structure Grew (K : Crypto) (S : Set Bytes) (blobs blobs' : Table ChunkId Bytes) : Prop where
  genuine : Genuine K S blobs → Genuine K S blobs'
  keeps : ∀ c : ChunkId, (blobs[c]?).isSome → (blobs'[c]?).isSome

theorem Grew.rfl : Grew K S blobs blobs := ⟨id, fun _ => id⟩

theorem Grew.trans {a b c : Table ChunkId Bytes} (h : Grew K S a b)
    (k : Grew K S b c) : Grew K S a c :=
  ⟨fun hg => k.genuine (h.genuine hg), fun x hx => k.keeps x (h.keeps x hx)⟩

theorem Grew.covers {a b : Table ChunkId Bytes} (h : Grew K S a b) {chunks : List ChunkId}
    (hc : Covers a chunks) : Covers b chunks := fun c hm => h.keeps c (hc c hm)

theorem putBlob_grew (blobs : Table ChunkId Bytes) {c : ChunkId} {sealed x : Bytes}
    (hS : x ∈ S) (ho : K.openChunk c sealed = some x) (hx : K.chunkId x = c) :
    Grew K S blobs (putBlob blobs c sealed).1 ∧ ((putBlob blobs c sealed).1[c]?).isSome := by
  refine ⟨⟨fun hg a s hs => ?_, fun a ha => ?_⟩, ?_⟩
  · rw [getElem?_putBlob] at hs
    split_ifs at hs with h
    · obtain rfl := Option.some.inj hs
      rw [← h.2]
      exact ⟨x, hS, ho, hx⟩
    · exact hg a s hs
  · rw [getElem?_putBlob]
    split_ifs
    · rfl
    · exact ha
  · rw [getElem?_putBlob]
    split_ifs with h
    · rfl
    · exact Option.isSome_iff_ne_none.mpr fun hn => h ⟨hn, Eq.refl c⟩

theorem Store.acceptChunk_grew (st : Store K) (c : ChunkId) (sealed : Bytes)
    (hS : ∀ x, K.openChunk c sealed = some x → K.chunkId x = c → x ∈ S) :
    Grew K S st.blobs (st.acceptChunk c sealed).1.blobs ∧
      ((st.acceptChunk c sealed).2 = true → ((st.acceptChunk c sealed).1.blobs[c]?).isSome) := by
  unfold Store.acceptChunk
  split_ifs with hlen
  · exact ⟨.rfl, by simp⟩
  · cases ho : K.openChunk c sealed with
    | none => exact ⟨.rfl, by simp⟩
    | some x =>
      dsimp only
      split_ifs with hx
      · exact ⟨.rfl, by simp⟩
      · obtain ⟨h1, h2⟩ := putBlob_grew st.blobs (hS x ho (not_not.mp hx)) ho (not_not.mp hx)
        exact ⟨h1, fun _ => h2⟩

theorem map_succ_ne_zero (r : Except SyncError ℕ) : r.map (· + 1) ≠ .ok 0 := by
  cases r <;> simp [Except.map]

/-- Fetching adds blobs, and all that were asked for if it says none is missing. -/
theorem fetchMissing_grew {source : ChunkSource} (hsrc : Serves K S source) (owner : UserId) :
    ∀ (chunks : List ChunkId)
    (st : Store K) (n : ℕ),
    Grew K S st.blobs (fetchMissing source owner st n chunks).1.blobs ∧
      ((fetchMissing source owner st n chunks).2.2 = .ok 0 →
        Covers (fetchMissing source owner st n chunks).1.blobs chunks)
  | [], st, n => ⟨.rfl, fun _ _ h => by cases h⟩
  | c :: rest, st, n => by
    unfold fetchMissing
    split_ifs with hc
    · obtain ⟨h1, h2⟩ := fetchMissing_grew hsrc owner rest st n
      refine ⟨h1, fun h => ?_⟩
      exact List.forall_mem_cons.mpr ⟨h1.keeps c hc, h2 h⟩
    · cases hfetch : source.fetch n owner c with
      | error error => exact ⟨.rfl, fun h => by cases h⟩
      | ok answer =>
        cases answer with
        | none =>
          obtain ⟨h1, -⟩ := fetchMissing_grew hsrc owner rest st (n + 1)
          exact ⟨h1, fun h => absurd h (map_succ_ne_zero _)⟩
        | some sealed =>
          obtain ⟨k1, k2⟩ := st.acceptChunk_grew c sealed fun x =>
            hsrc n owner c sealed x hfetch
          dsimp only
          split
          · rename_i st' heq
            rw [heq] at k1 k2
            obtain ⟨h1, h2⟩ := fetchMissing_grew hsrc owner rest st' (n + 1)
            refine ⟨k1.trans h1, fun h => ?_⟩
            exact List.forall_mem_cons.mpr ⟨h1.keeps c (k2 rfl), h2 h⟩
          · rename_i st' heq
            rw [heq] at k1
            obtain ⟨h1, -⟩ := fetchMissing_grew hsrc owner rest st' (n + 1)
            exact ⟨k1.trans h1, fun h => absurd h (map_succ_ne_zero _)⟩

/-! ### A write's stream -/

/-- Where a stream that started from `blobs` stands: what it listed is on disk, and it
changed no blob but those it created. -/
structure StreamOk (K : Crypto) (S : Set Bytes) (blobs : Table ChunkId Bytes)
    (s : Store.Streaming) : Prop where
  grew : Grew K S blobs s.blobs
  covers : Covers s.blobs s.chunks
  created : ∀ c ∈ s.created, blobs[c]? = none
  others : ∀ c : ChunkId, c ∉ s.created → s.blobs[c]? = blobs[c]?

section
variable {blobs : Table ChunkId Bytes} (path : Path) (budget : Option WriteBudget) (account : ℕ)

theorem onChunk_streamOk {s : Store.Streaming} (h : StreamOk K S blobs s) {x : Bytes} (hS : x ∈ S) :
    StreamOk K S blobs (Store.onChunk K path budget account s x).1 := by
  unfold Store.onChunk
  dsimp only
  split
  · exact ⟨h.grew, h.covers, h.created, h.others⟩
  · obtain ⟨hg, hx⟩ := putBlob_grew s.blobs hS (K.openChunk_sealChunk x) rfl
    have hcov : Covers (putBlob s.blobs (K.chunkId x) (K.sealChunk x)).1 (s.chunks ++ [K.chunkId x]) :=
      List.forall_mem_append.mpr ⟨hg.covers h.covers, List.forall_mem_singleton.mpr hx⟩
    by_cases hs : (s.blobs[K.chunkId x]?).isSome
    · have hput : putBlob s.blobs (K.chunkId x) (K.sealChunk x) = (s.blobs, false) := if_pos hs
      rw [hput] at hcov ⊢
      exact ⟨h.grew, hcov, h.created, h.others⟩
    · have hput : putBlob s.blobs (K.chunkId x) (K.sealChunk x) =
          (s.blobs.insert (K.chunkId x) (K.sealChunk x), true) := if_neg hs
      rw [hput] at hg hcov ⊢
      refine ⟨h.grew.trans hg, hcov, fun c hc => ?_, fun c hc => ?_⟩
      · rcases List.mem_append.mp hc with hc | hc
        · exact h.created c hc
        · -- what is not on disk now was not on disk at the start
          rw [List.mem_singleton.mp hc]
          cases hb : blobs[K.chunkId x]? with
          | none => rfl
          | some b => exact absurd (h.grew.keeps _ (by rw [hb]; rfl)) hs
      · obtain ⟨hold, hne⟩ := not_or.mp (mt List.mem_append.mpr hc)
        rw [← h.others c hold]
        exact Table.getElem?_insert_ne _ _ fun he => hne (List.mem_singleton.mpr he.symm)

theorem start_streamOk : StreamOk K S blobs ⟨blobs, [], [], [], 0⟩ :=
  ⟨.rfl, fun _ h => (List.not_mem_nil h).elim, fun _ h => (List.not_mem_nil h).elim, fun _ _ => rfl⟩

/-- Taking the created blobs back leaves the disk as it was. -/
theorem StreamOk.undo {s : Store.Streaming} (h : StreamOk K S blobs s) :
    s.created.foldl (fun b c => b.erase c) s.blobs = blobs := by
  refine Std.ExtTreeMap.ext_getElem? fun c => ?_
  rw [Table.getElem?_foldl_erase]
  split_ifs with hc
  · exact (h.created c hc).symm
  · exact h.others c hc

/-- A stream accepted chunk by chunk lists, hashes and counts what it was given. -/
theorem walk_onChunk_ok : ∀ (ps : List Bytes) (s s' : Store.Streaming),
    walk (Store.onChunk K path budget account) s ps = (s', none) →
    s'.chunks = s.chunks ++ ps.map K.chunkId ∧ s'.hashed = s.hashed ++ ps.flatten ∧
      s'.size = s.size + ps.flatten.length
  | [], s, s', h => by
    cases h
    simp
  | x :: ps, s, s', h => by
    obtain ⟨s₁, hx, hrest⟩ := walk_ok_cons h
    obtain ⟨h1, h2, h3⟩ := walk_onChunk_ok ps s₁ s' hrest
    unfold Store.onChunk at hx
    dsimp only at hx
    split at hx
    · cases hx
    · cases hx
      rw [h1, h2, h3]
      simp [Nat.add_assoc]

end

/-- What a stream comes to: refused, and the blobs it created are all it did, or
accepted, with the reader's whole content. -/
theorem splitStream_onChunk (c : Chunker) (reader : Reader) (path : Path)
    (budget : Option WriteBudget) (account : ℕ) (blobs : Table ChunkId Bytes)
    (hS : ∀ x ∈ (pieces c reader).1, x ∈ S) :
    match splitStream c reader (Store.onChunk K path budget account) ⟨blobs, [], [], [], 0⟩ with
    | (s, some _) => StreamOk K S blobs s
    | (s, none) => StreamOk K S blobs s ∧ content reader = some (pieces c reader).1.flatten ∧
        s.chunks = (pieces c reader).1.map K.chunkId ∧ s.hashed = (pieces c reader).1.flatten ∧
        s.size = (pieces c reader).1.flatten.length := by
  have hok := walk_invariant (Store.onChunk K path budget account) (StreamOk K S blobs)
    (pieces c reader).1 (fun s x hx hs => onChunk_streamOk path budget account hs (hS x hx))
    (s := ⟨blobs, [], [], [], 0⟩) start_streamOk
  rw [splitStream_eq_walk]
  rcases hw : walk (Store.onChunk K path budget account) ⟨blobs, [], [], [], 0⟩ (pieces c reader).1
    with ⟨s, _ | error⟩
  · rw [hw] at hok
    dsimp only
    cases hp : (pieces c reader).2 with
    | some error => exact hok
    | none =>
      obtain ⟨h1, h2, h3⟩ := walk_onChunk_ok path budget account _ _ s hw
      exact ⟨hok, pieces_flatten hp, by simpa using h1, by simpa using h2, by simpa using h3⟩
  · rw [hw] at hok
    exact hok

variable {st st' : Store K}

/-- The hash of an accepted write is that of the reader's bytes. -/
theorem writeStream_contentHash {path : Path} {reader : Reader} {now : ℕ} {entry : FileEntry}
    (h : st.writeStream path reader now = (st', .ok entry)) :
    ∃ bytes, content reader = some bytes ∧ entry.contentHash = K.contentHash bytes := by
  unfold Store.writeStream Store.writeIndex at h
  cases hvalid : validate path with
  | error error =>
    rw [hvalid] at h
    cases h
  | ok _ =>
    rw [hvalid] at h
    rcases hst : st.accountFor path with ⟨st₁, account⟩
    rw [hst] at h
    dsimp only at h
    have hs := splitStream_onChunk (K := K) (S := Set.univ) st₁.chunker reader path st₁.budget account
      st₁.blobs fun _ _ => trivial
    rcases hsplit : splitStream st₁.chunker reader (Store.onChunk K path st₁.budget account)
      ⟨st₁.blobs, [], [], [], 0⟩ with ⟨s, _ | refusal⟩
    · rw [hsplit] at h hs
      obtain ⟨-, hcontent, -, hhash, -⟩ := hs
      cases h
      exact ⟨_, hcontent, congrArg K.contentHash hhash⟩
    · rw [hsplit] at h
      cases h

/-! ### Changing the files -/

section
variable {m : Path → Option Bytes}

/-- Anything that leaves the files alone and no listed blob out keeps the contents. -/
theorem Keeps.same (h : Keeps S st m) (ht : st'.tree.Accurate)
    (hf : st'.tree.files = st.tree.files) (hg : Genuine K S st'.blobs)
    (hc : ∀ p f, st.getFile p = some f → Covers st'.blobs f.chunks) : Keeps S st' m := by
  have hget : ∀ p, st'.getFile p = st.getFile p := fun p => by rw [Store.getFile, hf]; rfl
  refine ⟨ht, hg, fun p f hp => hc p f (by rwa [← hget]), fun p hm => ?_, fun p b hm => ?_⟩
  · rw [hget]
    exact h.absent p hm
  · rw [hget]
    exact h.present p b hm

theorem getFile_putFile (st : Store K) (p q : Path) (f : FileEntry) (now : ℕ) :
    (st.putFile p f now).getFile q = if p = q then some f else st.getFile q := by
  show (st.tree.putFile p f now).1.files[q]? = _
  rw [FileTables.files_putFile, Table.getElem?_insert']
  rfl

/-- Putting an entry whose chunks are on disk sets its path. -/
theorem Keeps.putFile (h : Keeps S st m) {f : FileEntry} {b : Bytes}
    (hc : Covers st.blobs f.chunks) (hd : Describes K S f b) (now : ℕ) :
    Keeps S (st.putFile p f now) (Function.update m p (some b)) := by
  refine ⟨FileTables.putFile_accurate h.tree p f now, h.genuine, fun q g hq => ?_, fun q hq => ?_,
    fun q b' hq => ?_⟩
  · rw [getFile_putFile] at hq
    split_ifs at hq
    · cases hq
      exact hc
    · exact h.covered q g hq
  · rw [getFile_putFile]
    split_ifs with hpq
    · subst hpq
      rw [Function.update_self] at hq
      cases hq
    · rw [Function.update_of_ne (Ne.symm hpq)] at hq
      exact h.absent q hq
  · rw [getFile_putFile]
    split_ifs with hpq
    · subst hpq
      rw [Function.update_self] at hq
      cases hq
      exact ⟨f, rfl, hd⟩
    · rw [Function.update_of_ne (Ne.symm hpq)] at hq
      exact h.present q b' hq

/-- Taking an entry out clears its path. -/
theorem Keeps.erase (h : Keeps S st m) (ht : st'.tree.Accurate)
    (hf : st'.tree.files = st.tree.files.erase p) (hb : st'.blobs = st.blobs) :
    Keeps S st' (Function.update m p none) := by
  have hget : ∀ q, st'.getFile q = if p = q then none else st.getFile q := fun q => by
    rw [Store.getFile, hf, Table.getElem?_erase']
    rfl
  refine ⟨ht, by rw [hb]; exact h.genuine, fun q g hq => ?_, fun q hq => ?_, fun q b hq => ?_⟩
  · rw [hget] at hq
    split_ifs at hq
    rw [hb]
    exact h.covered q g hq
  · rw [hget]
    split_ifs with hpq
    · rfl
    · rw [Function.update_of_ne (Ne.symm hpq)] at hq
      exact h.absent q hq
  · by_cases hpq : p = q
    · subst hpq
      rw [Function.update_self] at hq
      cases hq
    · rw [Function.update_of_ne (Ne.symm hpq)] at hq
      rw [hget, if_neg hpq]
      exact h.present q b hq

/-! ### Deleting blobs -/

/-- `st'` is `st`, less what it had of `c` at most. -/
structure Dropped (st : Store K) (c : ChunkId) (st' : Store K) : Prop where
  chunker : st'.chunker = st.chunker
  files : st'.tree.files = st.tree.files
  accurate : st.tree.Accurate → st.tree.occurrences c = 0 → st'.tree.Accurate
  others : ∀ a : ChunkId, a ≠ c → st'.blobs[a]? = st.blobs[a]?
  fewer : ∀ (a : ChunkId) (sealed : Bytes), st'.blobs[a]? = some sealed → st.blobs[a]? = some sealed

theorem getElem?_of_erase {c a : ChunkId} {sealed : Bytes}
    (h : (blobs.erase c)[a]? = some sealed) : blobs[a]? = some sealed := by
  rw [Table.getElem?_erase'] at h
  split_ifs at h
  exact h

theorem releaseChunk_dropped (acc : Store K × ℕ × ℕ) (c : ChunkId) :
    Dropped acc.1 c (Store.releaseChunk acc c).1 := by
  obtain ⟨st, chunks, bytes⟩ := acc
  unfold Store.releaseChunk
  dsimp only
  cases st.blobs[c]? with
  | none => exact ⟨rfl, rfl, fun h hz => FileTables.releaseChunk_accurate h hz, fun _ _ =>
      rfl, fun _ _ => id⟩
  | some sealed =>
    exact ⟨rfl, rfl, fun h hz => FileTables.releaseChunk_accurate h hz,
      fun a ha => Table.getElem?_erase_ne _ ha.symm, fun _ _ => getElem?_of_erase⟩

theorem collectChunk_dropped (cutoff : ℕ) (acc : Store K × GcReport) (r : ChunkId × ℕ) :
    Dropped acc.1 r.1 (Store.collectChunk cutoff acc r).1 := by
  obtain ⟨st, report⟩ := acc
  obtain ⟨c, since⟩ := r
  unfold Store.collectChunk
  dsimp only
  split_ifs with hg
  · exact ⟨rfl, rfl, fun h _ => h, fun _ _ => rfl, fun _ _ => id⟩
  · cases st.blobs[c]? with
    | none => exact ⟨rfl, rfl, fun h hz => FileTables.releaseChunk_accurate h hz, fun _ _ =>
        rfl, fun _ _ => id⟩
    | some sealed =>
      exact ⟨rfl, rfl, fun h hz => FileTables.releaseChunk_accurate h hz,
        fun a ha => Table.getElem?_erase_ne _ ha.symm, fun _ _ => getElem?_of_erase⟩

/-- A chunk that no file lists can go. -/
theorem Keeps.dropped (h : Keeps S st m) {c : ChunkId} (hd : Dropped st c st')
    (hz : st.tree.occurrences c = 0) : Keeps S st' m := by
  refine h.same (hd.accurate h.tree hz) hd.files (fun a s hs => h.genuine a s (hd.fewer a s hs))
    fun p f hp a ha => ?_
  have hne : a ≠ c := by
    rintro rfl
    have hle := Table.le_total (fun e : FileEntry => e.chunks.count a) hp
    have hpos : 0 < f.chunks.count a := List.count_pos_iff.mpr ha
    unfold FileTables.occurrences at hz
    omega
  rw [hd.others a hne]
  exact h.covered p f hp a ha

/-- So can any number of them, one after another. -/
theorem Keeps.foldl_dropped {α σ : Type} (step : σ → α → σ) (store : σ → Store K)
    (chunk : α → ChunkId) (hstep : ∀ s x, Dropped (store s) (chunk x) (store (step s x))) :
    ∀ (xs : List α) (s : σ), Keeps S (store s) m →
      (∀ x ∈ xs, (store s).tree.occurrences (chunk x) = 0) →
      Keeps S (store (xs.foldl step s)) m ∧ (store (xs.foldl step s)).chunker = (store s).chunker
  | [], _, h, _ => ⟨h, rfl⟩
  | x :: xs, s, h, hz => by
    have hd := hstep s x
    obtain ⟨h1, h2⟩ := foldl_dropped step store chunk hstep xs (step s x)
      (h.dropped hd (hz x List.mem_cons_self)) fun y hy => by
        rw [FileTables.occurrences, hd.files]
        exact hz y (List.mem_cons_of_mem _ hy)
    exact ⟨h1, h2.trans hd.chunker⟩

/-! ### What each call does to the contents -/

theorem Keeps.accountFor (h : Keeps S st m) (path : Path) :
    Keeps S (st.accountFor path).1 m := by
  unfold Store.accountFor
  cases st.budget with
  | none => exact h
  | some budget =>
    refine h.same (TreeOp.apply_accurate h.tree .countLocalBytes) ?_ h.genuine h.covered
    show st.tree.countLocalBytes.1.files = st.tree.files
    unfold FileTables.countLocalBytes
    split <;> rfl

/-- A streamed write is put with the reader's bytes, or leaves everything as it was. -/
theorem Keeps.writeStream (h : Keeps S st m) (path : Path) (reader : Reader) (now : ℕ)
    (hS : ∀ x ∈ (pieces st.chunker reader).1, x ∈ S) :
    match st.writeStream path reader now with
    | (st', .error _) => Keeps S st' m
    | (st', .ok _) => Keeps S st' (Function.update m path (content reader)) := by
  unfold Store.writeStream Store.writeIndex
  cases validate path with
  | error error => exact h
  | ok _ =>
    have hk := h.accountFor path
    have hc : (st.accountFor path).1.chunker = st.chunker := (st.accountFor_same path).1.node.chunker
    rcases hst : st.accountFor path with ⟨st₁, account⟩
    rw [hst] at hk hc
    dsimp only at hk hc ⊢
    have hs := splitStream_onChunk (K := K) st₁.chunker reader path st₁.budget account st₁.blobs
      (by rw [hc]; exact hS)
    rcases hsplit : splitStream st₁.chunker reader (Store.onChunk K path st₁.budget account)
      ⟨st₁.blobs, [], [], [], 0⟩ with ⟨s, _ | error⟩
    · rw [hsplit] at hs
      obtain ⟨hok, hcontent, hchunks, hhash, hsize⟩ := hs
      rw [hc] at hcontent hchunks hhash hsize
      have hkeep : Keeps S { st₁ with blobs := s.blobs } m :=
        hk.same hk.tree rfl (hok.grew.genuine hk.genuine) fun p f hp =>
          hok.grew.covers (hk.covered p f hp)
      have hd : Describes K S (st₁.streamedEntry path now s) (pieces st.chunker reader).1.flatten :=
        ⟨⟨_, hS, hchunks, rfl⟩, hsize, congrArg K.contentHash hhash⟩
      have hput := hkeep.putFile (p := path) hok.covers hd now
      rw [hcontent]
      exact hput.same hput.tree rfl hput.genuine hput.covered
    · rw [hsplit] at hs
      refine hk.same hk.tree rfl (hs.undo.symm ▸ hk.genuine) fun p f hp => ?_
      exact hs.undo.symm ▸ hk.covered p f hp

theorem Keeps.removeFile (h : Keeps S st m) (path : Path) (now : ℕ) :
    match st.removeFile path now with
    | (st', .ok _) => Keeps S st' (Function.update m path none)
    | (st', .error _) => Keeps S st' m := by
  unfold Store.removeFile Store.removeIndex
  cases validate path with
  | error error => exact h
  | ok _ =>
    cases hf : st.getFile path with
    | none =>
      dsimp only
      rw [Function.update_eq_self_iff.mpr (h.contents_none hf).symm]
      exact h
    | some f =>
      exact h.erase (FileTables.removeFile_accurate h.tree path _ now)
        (FileTables.files_dropFile st.tree path now) rfl

theorem Keeps.release (h : Keeps S st m) (path : Path) (now : ℕ) :
    match st.release path now with
    | (st', .ok (.gone _ _)) => Keeps S st' (Function.update m path none) ∧ st'.chunker = st.chunker
    | (st', _) => Keeps S st' m ∧ st'.chunker = st.chunker := by
  unfold Store.release
  cases validate path with
  | error error => exact ⟨h, rfl⟩
  | ok _ =>
    cases st.getFile path with
    | none => exact ⟨h, rfl⟩
    | some f =>
      dsimp only
      cases st.unsafeChunk f now with
      | some found => exact ⟨h, rfl⟩
      | none =>
        have herase : Keeps S (st.withTree (st.tree.releaseFile path now).1)
            (Function.update m path none) :=
          h.erase (FileTables.dropFile_accurate h.tree path now)
            (FileTables.files_dropFile st.tree path now) rfl
        exact Keeps.foldl_dropped Store.releaseChunk (fun acc => acc.1) id releaseChunk_dropped
          (st.tree.releaseFile path now).2 (_, 0, 0) herase fun c hc =>
            FileTables.occurrences_of_mem_dropped h.tree hc

theorem Keeps.collectGarbage (h : Keeps S st m) (grace now : ℕ) :
    Keeps S (st.collectGarbage grace now).1 m ∧ (st.collectGarbage grace now).1.chunker = st.chunker :=
  Keeps.foldl_dropped (Store.collectChunk (now - grace)) (fun acc => acc.1) Prod.fst
    (collectChunk_dropped (now - grace)) st.tree.unreferenced.toList (st, ⟨0, 0, 0, 0⟩) h
    fun _ hr => FileTables.occurrences_of_mem_unreferenced h.tree hr

/-- Fetching adds to the disk only. -/
theorem Keeps.fetchMissing (h : Keeps S st m) {source : ChunkSource}
    (hsrc : Serves K S source) (owner : UserId) (n : ℕ) (chunks : List ChunkId) :
    Keeps S (fetchMissing source owner st n chunks).1 m := by
  obtain ⟨hg, -⟩ := fetchMissing_grew hsrc owner chunks st n
  obtain ⟨blobs, losses, hb⟩ := fetchMissing_same source owner chunks st n
  rw [hb] at hg ⊢
  exact h.same h.tree rfl (hg.genuine h.genuine) fun p f hp => hg.covers (h.covered p f hp)

end

/-! ### Runs -/

namespace Contents

/-- The calls that change what a store holds. An adoption comes with the bytes its
entry is of; it is made once every chunk of the entry could be fetched. -/
inductive Op
  | write (path : Path) (reader : Reader) (now : ℕ)
  | remove (path : Path) (now : ℕ)
  | adopt (path : Path) (entry : FileEntry) (bytes : Bytes) (source : ChunkSource) (now : ℕ)
  | release (path : Path) (now : ℕ)
  | collectGarbage (grace now : ℕ)
  | setBudget (budget : Option WriteBudget)

/-- A store, and what its callers were told it holds. -/
structure State (K : Crypto) where
  store : Store K
  contents : Path → Option Bytes

/-- One call. The contents change only where the call says so. -/
def step (s : State K) : Op → State K
  | .write path reader now =>
    match s.store.writeStream path reader now with
    | (st, .ok _) => ⟨st, Function.update s.contents path (content reader)⟩
    | (st, .error _) => ⟨st, s.contents⟩
  | .remove path now =>
    match s.store.removeFile path now with
    | (st, .ok _) => ⟨st, Function.update s.contents path none⟩
    | (st, .error _) => ⟨st, s.contents⟩
  | .adopt path entry bytes source now =>
    match fetchMissing source s.store.owner s.store 0 entry.chunks with
    | (st, _, .ok 0) =>
      match st.adoptEntry path entry now with
      | (st, .ok ()) => ⟨st, Function.update s.contents path (some bytes)⟩
      | (st, .error _) => ⟨st, s.contents⟩
    | (st, _, _) => ⟨st, s.contents⟩
  | .release path now =>
    match s.store.release path now with
    | (st, .ok (.gone _ _)) => ⟨st, Function.update s.contents path none⟩
    | (st, _) => ⟨st, s.contents⟩
  | .collectGarbage grace now => ⟨(s.store.collectGarbage grace now).1, s.contents⟩
  | .setBudget budget => ⟨{ s.store with budget := budget }, s.contents⟩

/-- An empty store, told so. -/
def start (K : Crypto) (device : DeviceId) (owner : UserId) (chunker : Chunker) : State K :=
  ⟨Store.new device owner chunker, fun _ => none⟩

def run (s : State K) (ops : List Op) : State K := ops.foldl step s

/-- What the call stores is cut into pieces of `S`. -/
def Op.Within (K : Crypto) (S : Set Bytes) (chunker : Chunker) : Op → Prop
  | .write _ reader _ => ∀ x ∈ (pieces chunker reader).1, x ∈ S
  | .adopt _ entry bytes source _ => Describes K S entry bytes ∧ Serves K S source
  | _ => True

/-- The store keeps the contents its callers were told. -/
def Faithful (S : Set Bytes) (chunker : Chunker) (s : State K) : Prop :=
  Keeps S s.store s.contents ∧ s.store.chunker = chunker

theorem start_faithful (S : Set Bytes) (device : DeviceId) (owner : UserId) (chunker : Chunker) :
    Faithful S chunker (start K device owner chunker) := by
  refine ⟨⟨TreeOp.new_accurate, fun c sealed h => ?_, fun p f h => ?_, fun p _ => rfl, fun p b h =>
    ?_⟩, rfl⟩
  · simp [start, Store.new] at h
  · simp [start, Store.new, Store.getFile, Store.tree, Index.new, FileTables.new] at h
  · cases h

/-- **Every call keeps the contents.** -/
theorem step_faithful {chunker : Chunker} {s : State K} (h : Faithful S chunker s)
    {op : Op} (hop : op.Within K S chunker) : Faithful S chunker (step s op) := by
  obtain ⟨st, m⟩ := s
  obtain ⟨hk, hc⟩ := h
  dsimp only at hk hc
  cases op with
  | write path reader now =>
    have hw := hk.writeStream path reader now (by rw [hc]; exact hop)
    simp only [step]
    rcases st.writeStream_cases path reader now with ⟨st', error, heq, hu⟩ | ⟨st', f, heq, -, hl, -⟩
    · rw [heq] at hw ⊢
      exact ⟨hw, hu.node.chunker.trans hc⟩
    · rw [heq] at hw ⊢
      exact ⟨hw, hl.home.chunker.trans hc⟩
  | remove path now =>
    have hr := hk.removeFile path now
    simp only [step]
    rcases st.removeFile_cases path now with ⟨r, heq, -⟩ | ⟨st', t, f, heq, -, -, hl, -⟩
    · rw [heq] at hr ⊢
      cases r with
      | error error => exact ⟨hr, hc⟩
      | ok removed => exact ⟨hr, hc⟩
    · rw [heq] at hr ⊢
      exact ⟨hr, hl.home.chunker.trans hc⟩
  | adopt path entry bytes source now =>
    have hf := hk.fetchMissing hop.2 st.owner 0 entry.chunks
    obtain ⟨-, hcov⟩ := fetchMissing_grew hop.2 st.owner entry.chunks st 0
    obtain ⟨blobs, losses, hb⟩ := fetchMissing_same source st.owner entry.chunks st 0
    simp only [step]
    rcases heq : Itsanas.fetchMissing source st.owner st 0 entry.chunks with ⟨st', n, r⟩
    rw [heq] at hf hcov hb
    dsimp only at hf hcov hb
    have hc' : st'.chunker = chunker := by rw [hb]; exact hc
    split
    · rename_i heq'
      cases heq'
      unfold Store.adoptEntry
      cases validate path with
      | error error => exact ⟨hf, hc'⟩
      | ok _ => exact ⟨hf.putFile (hcov rfl) hop.1 now, hc'⟩
    · rename_i heq'
      cases heq'
      exact ⟨hf, hc'⟩
  | release path now =>
    have hr := hk.release path now
    simp only [step]
    split at hr
    · exact ⟨hr.1, hr.2.trans hc⟩
    · exact ⟨hr.1, hr.2.trans hc⟩
  | collectGarbage grace now =>
    obtain ⟨h1, h2⟩ := hk.collectGarbage grace now
    exact ⟨h1, h2.trans hc⟩
  | setBudget budget => exact ⟨hk.same hk.tree rfl hk.genuine hk.covered, hc⟩

theorem run_faithful {chunker : Chunker} {s : State K} (h : Faithful S chunker s)
    {ops : List Op} (hops : ∀ op ∈ ops, op.Within K S chunker) : Faithful S chunker (run s ops) :=
  List.foldlRecOn ops step h fun _ hs op hop => step_faithful hs (hops op hop)

/-- **A read returns what was last accepted.** After any run of writes (accepted or
refused), removes, adoptions, releases and collections, reading a path gives the bytes
last accepted there, or none if they were removed since. -/
theorem read_last_accepted (hS : CollisionFree K S) (device : DeviceId)
    (owner : UserId) (chunker : Chunker) (ops : List Op) (hops : ∀ op ∈ ops, op.Within K S chunker)
    (p : Path) (hp : validate p = .ok ()) :
    (run (start K device owner chunker) ops).store.readFile p =
      .ok ((run (start K device owner chunker) ops).contents p) :=
  (run_faithful (start_faithful S device owner chunker) hops).1.readFile hS hp

/-- Two files that share a chunk, one of them with it twice; a write that its reader
breaks off; the first file removed and the garbage collected. -/
def sharedChunks : List Op :=
  [.write "a".toList [.data [1, 2, 1, 2]] 5, .write "b".toList [.data [1, 2, 3]] 6,
    .write "b".toList [.data [3, 3, 3], .failed] 7, .remove "a".toList 8, .collectGarbage 0 9]

theorem sharedChunks_within : ∀ op ∈ sharedChunks,
    op.Within symbolic {x | x ∈ [[1, 2], [3], [3, 3]]} twoBytes := by
  have h : ∀ r ∈ ([[.data [1, 2, 1, 2]], [.data [1, 2, 3]], [.data [3, 3, 3], .failed]] : List Reader),
      ∀ x ∈ (pieces twoBytes r).1, x ∈ [[1, 2], [3], [3, 3]] := by
    decide +kernel
  simp only [sharedChunks, List.forall_mem_cons]
  exact ⟨h _ (by simp), h _ (by simp), h _ (by simp), trivial, trivial, by simp⟩

theorem read_last_accepted_sharedChunks :
    (run (start symbolic 1 7 twoBytes) sharedChunks).store.readFile "b".toList =
      .ok (some [1, 2, 3]) ∧
    (run (start symbolic 1 7 twoBytes) sharedChunks).store.readFile "a".toList = .ok none := by
  have hS : CollisionFree symbolic {x | x ∈ [[1, 2], [3], [3, 3]]} := by
    show ∀ x ∈ [[1, 2], [3], [3, 3]], ∀ y ∈ [[1, 2], [3], [3, 3]], digitsId x = digitsId y → x = y
    decide +kernel
  have hb : (run (start symbolic 1 7 twoBytes) sharedChunks).contents "b".toList =
      some [1, 2, 3] := by
    decide +kernel
  have ha : (run (start symbolic 1 7 twoBytes) sharedChunks).contents "a".toList = none := by
    decide +kernel
  rw [← hb, ← ha]
  exact ⟨read_last_accepted hS 1 7 _ sharedChunks sharedChunks_within _ (by decide),
    read_last_accepted hS 1 7 _ sharedChunks sharedChunks_within _ (by decide)⟩

end Contents

/-! ### A write that does not happen -/

namespace Store

/-- The store as it was; at most its size has been counted. -/
structure Untouched (st st' : Store K) : Prop where
  same : st' = st.withTree { st.tree with localBytes := st'.tree.localBytes }
  blobs : st'.blobs = st.blobs
  size : st'.localBytes.2 = st.localBytes.2
  reads : ∀ path, st'.readFile path = st.readFile path

theorem Untouched.refl (st : Store K) : st.Untouched st := ⟨rfl, rfl, rfl, fun _ => rfl⟩

/-- Counting the size of the files touches nothing. -/
theorem localBytes_untouched (st : Store K) : st.Untouched st.localBytes.1 := by
  have htree : st.tree.countLocalBytes.1 =
    { st.tree with localBytes := st.tree.countLocalBytes.1.localBytes } ∧
      st.tree.countLocalBytes.1.countLocalBytes.2 = st.tree.countLocalBytes.2 := by
    unfold FileTables.countLocalBytes
    cases hbytes : st.tree.localBytes with
    | none => exact ⟨rfl, rfl⟩
    | some total =>
      dsimp only
      rw [hbytes]
      exact ⟨hbytes ▸ rfl, rfl⟩
  have hfiles : st.localBytes.1.tree.files = st.tree.files :=
    (congrArg FileTables.files htree.1).trans rfl
  refine ⟨congrArg st.withTree htree.1, rfl, htree.2, fun path => ?_⟩
  rw [readFile, readFile, getFile, getFile, hfiles]
  rfl

theorem accountFor_untouched (st : Store K) (path : Path) : st.Untouched (st.accountFor path).1 := by
  unfold accountFor
  cases st.budget with
  | none => exact .refl st
  | some budget => exact st.localBytes_untouched

/-- **A write that does not happen changes nothing**, whenever its reader fails or its budget
is exceeded: every table and the log are as they were, so are the blobs, the size and what can
be read at every path. -/
theorem failed_write_untouched (st : Store K) (path : Path) (reader : Reader) (now : ℕ)
    {error : StoreError} (hfails : (st.writeStream path reader now).2 = .error error) :
    st.Untouched (st.writeStream path reader now).1 := by
  have hcounted := st.accountFor_untouched path
  unfold writeStream writeIndex at hfails ⊢
  cases hvalid : validate path with
  | error refusal => exact .refl st
  | ok _ =>
    rw [hvalid] at hfails
    rcases hst : st.accountFor path with ⟨st₁, account⟩
    rw [hst] at hcounted hfails
    dsimp only at hcounted hfails ⊢
    have hs := splitStream_onChunk (K := K) (S := Set.univ) st₁.chunker reader path st₁.budget account
      st₁.blobs fun _ _ => trivial
    rcases hsplit : splitStream st₁.chunker reader (onChunk K path st₁.budget account)
      ⟨st₁.blobs, [], [], [], 0⟩ with ⟨s, _ | refusal⟩
    · rw [hsplit] at hfails
      cases hfails
    · -- what the stream has brought in is taken back
      rw [hsplit] at hs
      have hundone :
        ({ st₁ with blobs := s.created.foldl (fun blobs address => blobs.erase address) s.blobs } :
          Store K) = st₁ := by rw [hs.undo]
      show st.Untouched { st₁ with blobs := _ }
      rw [hundone]
      exact hcounted

/-- The third chunk of a write is one too many; the first was there, and the second comes
twice. -/
theorem failed_write_untouched_budget :
    let st := (((new 1 7 twoBytes : Store symbolic).writeStream "a".toList [.data [1, 2]]
      5).1).setWriteBudget
      (some ⟨7, 0, none, .none⟩)
    (st.writeStream "b".toList [.data [1, 2, 3, 4, 3, 4]] 6).2 =
      .error (.overBudget "b".toList 2 8 7) ∧
      st.Untouched (st.writeStream "b".toList [.data [1, 2, 3, 4, 3, 4]] 6).1 := by
  intro st
  have hfails : (st.writeStream "b".toList [.data [1, 2, 3, 4, 3, 4]] 6).2 =
      .error (.overBudget "b".toList 2 8 7) := rfl
  exact ⟨hfails, failed_write_untouched st _ _ _ hfails⟩

end Store

end Itsanas
