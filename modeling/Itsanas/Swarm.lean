/-
# The devices of one account

Every device of an account has a store of its own. They act in any order, one
call at a time: a device writes, deletes, releases, flushes, or applies any
segments the devices have published, in any order and as often as it likes. A
swarm is the stores, `Swarm.act` is one call, and `Moved` is everything a call can
do to the store of the device that makes it.

What holds in every swarm a run reaches is `Swarm.Inv`: a component of a version
never exceeds what its device has logged, a device's own component in what it
logs is the sequence number of the entry, every row anywhere comes from an entry
of some log, and no two entries carry the same version. The last is what lets
the engine take `Equal` for "already known".
-/
import Itsanas.Local
import Itsanas.Rounds

namespace Itsanas

variable {K : Crypto}

/-- The store of every device of an account. -/
abbrev Swarm (K : Crypto) : Type := DeviceId → Store K

/-- One call on the store of one device. Segments are picked by the device that
published them and their place in its chain, and what a delete of unheld content
has seen by a published entry. -/
inductive Act
  | write (device : DeviceId) (path : Path) (reader : Reader) (now : ℕ)
  | remove (device : DeviceId) (path : Path) (now : ℕ)
  | removeUnheld (device : DeviceId) (path : Path) (seen : DeviceId × ℕ) (now : ℕ)
  | release (device : DeviceId) (path : Path) (now : ℕ)
  | flush (device : DeviceId) (segmentId : ObjectId)
  | apply (device : DeviceId) (picks : List (DeviceId × ℕ)) (source : ChunkSource) (now : ℕ)

/-- The device that acts. -/
def Act.device : Act → DeviceId
  | write device _ _ _ | remove device _ _ | removeUnheld device _ _ _ | release device _ _
  | flush device _ | apply device _ _ _ => device

variable {d : DeviceId}

namespace Swarm

/-- The stores of an account at its start. -/
def start (owner : UserId) (chunker : DeviceId → Chunker) : Swarm K :=
  fun d => .new d owner (chunker d)

/-- Everything a device has logged. -/
def entries (w : Swarm K) (d : DeviceId) : List LogEntry := (w d).index.log.entries

/-- The part of it that others can see. -/
def published (w : Swarm K) (d : DeviceId) : List LogEntry := sealedEntries (w d).segments

/-- The segments picked from the chains as they are. -/
def picked (w : Swarm K) (picks : List (DeviceId × ℕ)) : List (SegmentEnvelope K) :=
  picks.filterMap fun r => (w r.1).segments[r.2]?

/-- The version of a published entry. -/
def seenVersion (w : Swarm K) (seen : DeviceId × ℕ) : VersionVector :=
  ((w.published seen.1)[seen.2]?).elim .new fun e => e.operation.version

/-- What an act makes of the store of its device. -/
def acted (w : Swarm K) : Act → Store K
  | .write d path reader now => ((w d).writeStream path reader now).1
  | .remove d path now => ((w d).removeFile path now).1
  | .removeUnheld d path seen now => ((w d).removeUnheld path (w.seenVersion seen) now).1
  | .release d path now => ((w d).release path now).1
  | .flush d segmentId => ((w d).flushSegment segmentId).1
  | .apply d picks source now => (applySegments (w d) (w.picked picks) source now).1

/-- One act; the other devices' stores stay as they are. -/
def act (w : Swarm K) (a : Act) : Swarm K := Function.update w a.device (w.acted a)

def run (w : Swarm K) (acts : List Act) : Swarm K := acts.foldl act w

theorem act_self (w : Swarm K) (a : Act) : w.act a a.device = w.acted a :=
  Function.update_self _ _ _

theorem act_other (w : Swarm K) {a : Act} (h : d ≠ a.device) : w.act a d = w d :=
  Function.update_of_ne h _ _

end Swarm

/-! ### What an act can do -/

/-- Rows that one merge of an entry in `S` leads to. -/
def MergesTo (S : Set (DeviceId × LogEntry)) (rows rows' : Rows) : Prop :=
  ∃ r ∈ S, rows' = (merge r.1 rows r.2).1

/-- The entries of other devices that `d` can be given. -/
def Swarm.others (w : Swarm K) (d : DeviceId) : Set (DeviceId × LogEntry) :=
  {r | r.1 ≠ d ∧ r.2 ∈ w.published r.1}

/-- Everything an act can do to the store of its device. -/
inductive Moved (w : Swarm K) : Act → Store K → Prop
  | still (a : Act) (st' : Store K) (h : Unmoved (w a.device) st') : Moved w a st'
  | wrote (d : DeviceId) (path : Path) (reader : Reader) (now : ℕ) (entry : FileEntry)
      (st' : Store K) (hlog : Logged (w d) st' ((w d).writeEntry path entry))
      (hstamp : Stamp (w d) ((w d).writeEntry path entry) ((w d).row path).version) :
      Moved w (.write d path reader now) st'
  | removed (d : DeviceId) (path : Path) (now : ℕ) (t : Tombstone) (f : FileEntry) (st' : Store K)
      (hrow : (w d).row path = .file f) (hlog : Logged (w d) st' ((w d).removeEntry path t))
      (hstamp : Stamp (w d) ((w d).removeEntry path t) ((w d).row path).version) :
      Moved w (.remove d path now) st'
  | removedUnheld (d : DeviceId) (path : Path) (seen : DeviceId × ℕ) (now : ℕ) (t : Tombstone)
      (st' : Store K) (hlog : Logged (w d) st' ((w d).removeEntry path t))
      (hstamp : Stamp (w d) ((w d).removeEntry path t)
        (((w d).row path).version.merge (w.seenVersion seen))) :
      Moved w (.removeUnheld d path seen now) st'
  | released (d : DeviceId) (path : Path) (now : ℕ) (f : FileEntry) (st' : Store K)
      (hrow : (w d).row path = .file f) (hnode : SameNode (w d) st')
      (hrow' : st'.row = Function.update (w d).row path .absent) :
      Moved w (.release d path now) st'
  | flushed (d : DeviceId) (segmentId : ObjectId) (e : SegmentEnvelope K)
      (h : LogOk.SealsPending (w d).owner (w d).device (w d).index.log e) :
      Moved w (.flush d segmentId) ((w d).withLog ((w d).index.log.appended e))
  | merged (d : DeviceId) (picks : List (DeviceId × ℕ)) (source : ChunkSource) (now : ℕ)
      (st' : Store K) (hnode : SameNode (w d) st')
      (hrows : Relation.ReflTransGen (MergesTo (w.others d)) (w d).row st'.row) :
      Moved w (.apply d picks source now) st'

variable {w : Swarm K} {owner : UserId}

namespace Swarm

/-- What holds of every device by itself. -/
structure Homes (owner : UserId) (w : Swarm K) : Prop where
  device : ∀ d, (w d).device = d
  owned : ∀ d, (w d).owner = owner
  roster : ∀ d, (w d).index.roster = ∅
  apart : ∀ d, (w d).tree.Apart
  log : ∀ d, LogOk owner d (w d).index.log

theorem Homes.logOk (h : Homes owner w) (d : DeviceId) :
    LogOk (w d).owner (w d).device (w d).index.log := by
  rw [h.owned, h.device]
  exact h.log d

/-- A picked segment is in its device's chain. -/
theorem mem_picked (h : Homes owner w) {picks : List (DeviceId × ℕ)}
    {e : SegmentEnvelope K} (he : e ∈ w.picked picks) :
    e ∈ (w e.device).segments ∧ e.owner = owner := by
  obtain ⟨⟨d, i⟩, -, hi⟩ := List.mem_filterMap.mp he
  have hm : e ∈ (w d).segments := List.mem_of_getElem? hi
  obtain ⟨ho, hd, -⟩ := (h.log d).opens e hm
  exact ⟨by rw [hd]; exact hm, ho⟩

theorem mem_published_of_mem {e : SegmentEnvelope K} (he : e ∈ (w e.device).segments)
    {entries : List LogEntry} (ho : e.openBody = .ok entries) {x : LogEntry} (hx : x ∈ entries) :
    x ∈ w.published e.device :=
  List.mem_flatMap.mpr ⟨e, he, by rwa [SegmentEnvelope.openBody_eq_body ho]⟩

theorem mem_entries_of_published {x : LogEntry} (h : x ∈ w.published d) : x ∈ w.entries d:=
  List.mem_append_left _ h

/-- **Everything an act does, `Moved` lists.** -/
theorem act_moved (h : Homes owner w) (a : Act) :
    Moved w a (w.acted a) := by
  cases a with
  | write d path reader now =>
    show Moved w _ ((w d).writeStream path reader now).1
    rcases (w d).writeStream_cases path reader now with
      ⟨st', error, heq, hu⟩ | ⟨st', entry, heq, -, hlog, hstamp⟩
    · rw [heq]
      exact .still _ st' hu
    · rw [heq]
      exact .wrote d path reader now entry st' hlog hstamp
  | remove d path now =>
    show Moved w _ ((w d).removeFile path now).1
    rcases (w d).removeFile_cases path now with ⟨r, heq, -⟩ | ⟨st', t, f, heq, -, hf, hlog, hstamp⟩
    · rw [heq]
      exact .still _ _ .rfl
    · rw [heq]
      exact .removed d path now t f st' hf hlog hstamp
  | removeUnheld d path seen now =>
    show Moved w _ ((w d).removeUnheld path (w.seenVersion seen) now).1
    rcases (w d).removeUnheld_cases path (w.seenVersion seen) now with
      ⟨error, heq⟩ | ⟨st', t, heq, -, hlog, hstamp⟩
    · rw [heq]
      exact .still _ _ .rfl
    · rw [heq]
      exact .removedUnheld d path seen now t st' hlog hstamp
  | release d path now =>
    show Moved w _ ((w d).release path now).1
    rcases Store.release_cases (h.apart d) path now with ⟨r, heq⟩ | ⟨st', f, _, _, heq, hf, hn, hr⟩
    · rw [heq]
      exact .still _ _ .rfl
    · rw [heq]
      exact .released d path now f st' hf hn hr
  | flush d segmentId =>
    show Moved w _ ((w d).flushSegment segmentId).1
    rcases Store.flushSegment_spec (h.logOk d) segmentId with ⟨-, heq⟩ | ⟨e, hs, heq⟩
    · rw [heq]
      exact .still _ _ .rfl
    · rw [heq]
      exact .flushed d segmentId e hs
  | apply d picks source now =>
    show Moved w _ (applySegments (w d) (w.picked picks) source now).1
    obtain ⟨hrows, hnode⟩ := applyReplaying_invariant
      (fun st' => Relation.ReflTransGen (MergesTo (w.others d)) (w d).row st'.row)
      (w d) (w.picked picks) source .othersOnly now
      (fun device own e ht st' n hn hI => by
        obtain ⟨env, hm, hdev, -, -, ⟨entries, ho, hx⟩, hne, -⟩ := of_mem_tasks ht
        subst hdev
        have hin : (env.device, e) ∈ w.others d := by
          refine ⟨?_, mem_published_of_mem (mem_picked h hm).1 ho hx⟩
          have := hne rfl
          rwa [h.device] at this
        rcases (applyEntry_merges source now st' n env.device e own).rows with ⟨hr, -⟩ | ⟨hr, -⟩
        · rw [hr]
          exact hI.tail ⟨_, hin, rfl⟩
        · rw [hr]
          exact hI)
      Relation.ReflTransGen.refl
    exact .merged d picks source now _ hnode hrows

/-! ### Logs only grow -/

end Swarm

/-- The log of `st'` has everything the log of `st` has, and has published everything it
has published. -/
structure LogGrows (st st' : Store K) : Prop where
  entries : ∀ x ∈ st.index.log.entries, x ∈ st'.index.log.entries
  published : ∀ x ∈ sealedEntries st.segments, x ∈ sealedEntries st'.segments

theorem LogGrows.rfl {st : Store K} : LogGrows st st := ⟨fun _ => id, fun _ => id⟩

theorem LogGrows.trans {st st' st'' : Store K} (h : LogGrows st st') (k : LogGrows st' st'') :
    LogGrows st st'' :=
  ⟨fun x hx => k.entries x (h.entries x hx), fun x hx => k.published x (h.published x hx)⟩

theorem SameNode.logGrows {st st' : Store K} (h : SameNode st st') : LogGrows st st' := by
  constructor
  · rw [h.log]
    exact fun _ => id
  · rw [Store.segments, Store.segments, h.log]
    exact fun _ => id

variable {e : LogEntry} {base : VersionVector}

theorem Logged.logGrows {st st' : Store K}
    (h : Logged st st' e) (hs : Stamp st e base) (hl : LogOk st.owner st.device st.index.log) :
    LogGrows st st' := by
  constructor
  · rw [h.log, hl.entries_pushPending hs.sequence]
    exact fun x hx => List.mem_append_left _ hx
  · rw [Store.segments, Store.segments, h.log]
    exact fun _ => id

theorem LogOk.logGrows {st : Store K} {e : SegmentEnvelope K}
    (hl : LogOk st.owner st.device st.index.log)
    (hs : LogOk.SealsPending st.owner st.device st.index.log e) :
    LogGrows st (st.withLog (st.index.log.appended e)) := by
  constructor
  · intro x hx
    show x ∈ (st.index.log.appended e).entries
    rwa [hl.entries_appended hs]
  · intro x hx
    show x ∈ sealedEntries (st.index.log.appended e).chain
    rw [hl.chain_appended, sealedEntries, List.flatMap_append]
    exact List.mem_append_left _ hx

namespace Swarm

/-- No log loses anything by an act. -/
theorem act_logGrows (h : Homes owner w) (a : Act) (d : DeviceId) :
    LogGrows (w d) (w.act a d) := by
  by_cases hd : d = a.device
  swap
  · rw [act_other w hd]
    exact .rfl
  subst hd
  rw [act_self]
  have hm := act_moved h a
  generalize w.acted a = st' at hm ⊢
  cases hm with
  | still a st' hu => exact hu.node.logGrows
  | wrote d path reader now entry st' hlog hstamp => exact hlog.logGrows hstamp (h.logOk d)
  | removed d path now t f st' hrow hlog hstamp => exact hlog.logGrows hstamp (h.logOk d)
  | removedUnheld d path seen now t st' hlog hstamp => exact hlog.logGrows hstamp (h.logOk d)
  | released d path now f st' hrow hnode hrow' => exact hnode.logGrows
  | merged d picks source now st' hnode hrows => exact hnode.logGrows
  | flushed d segmentId e hs => exact (h.logOk d).logGrows hs

/-! ### What every act keeps -/

/-- No component of `v` exceeds what its device has logged. -/
def Bounded (w : Swarm K) (v : VersionVector) : Prop := ∀ d, v.get d ≤ (w.entries d).length

/-- The entries `d` may have seen: everything published and its own. -/
def visible (w : Swarm K) (d : DeviceId) : Set (DeviceId × LogEntry) :=
  {r | r.2 ∈ w.published r.1 ∨ r.1 = d ∧ r.2 ∈ w.entries d}

end Swarm

/-- The row at `q` comes from an entry in `S`. -/
def Sourced (S : Set (DeviceId × LogEntry)) (q : Path) : Row → Prop
  | .absent => True
  | .file f => ∃ r ∈ S, ∃ p, r.2.operation = .upsert p f
  | .gone t => ∃ r ∈ S, r.2.operation = .remove q t.version

variable {S T : Set (DeviceId × LogEntry)} {q : Path}

theorem Sourced.mono (h : S ⊆ T) {row : Row} (hr : Sourced S q row) : Sourced T q row:= by
  cases row with
  | absent => trivial
  | file f =>
    obtain ⟨r, hr, hp⟩ := hr
    exact ⟨r, h hr, hp⟩
  | gone t =>
    obtain ⟨r, hr, hp⟩ := hr
    exact ⟨r, h hr, hp⟩

theorem sourced_row {S : Set (DeviceId × LogEntry)} {device : DeviceId}
    (h : (device, e) ∈ S) : Sourced S e.operation.path (e.row device) := by
  unfold LogEntry.row
  cases hop : e.operation with
  | upsert p f => exact ⟨_, h, p, hop⟩
  | remove p v => exact ⟨_, h, by simp [LogEntry.tombstone, hop, Operation.path, Operation.version]⟩

/-- A row that comes from an entry is absent or has that entry's version. -/
theorem Sourced.exists_version {S : Set (DeviceId × LogEntry)} {row : Row}
    (h : Sourced S q row) : row = .absent ∨ ∃ r ∈ S, row.version = r.2.operation.version := by
  cases row with
  | absent => exact Or.inl rfl
  | file f =>
    obtain ⟨r, hr, p, hp⟩ := h
    exact Or.inr ⟨r, hr, by rw [hp]; rfl⟩
  | gone t =>
    obtain ⟨r, hr, hp⟩ := h
    exact Or.inr ⟨r, hr, by rw [hp]; rfl⟩

/-- Merging an entry of `S` leaves rows that come from `S`. -/
theorem MergesTo.sourced (hST : T ⊆ S) {rows rows' : Rows}
    (h : MergesTo T rows rows') (hs : ∀ q, Sourced S q (rows q)) : ∀ q, Sourced S q (rows' q) := by
  obtain ⟨⟨device, e⟩, hr, rfl⟩ := h
  intro q
  have hrow := sourced_row (hST hr)
  rcases merge_row_cases device rows e q with heq | ⟨heq, hq | ⟨f, hf⟩⟩ | ⟨f, heq, hf⟩
  · rw [heq]
    exact hs q
  · rw [heq, hq]
    exact hrow
  · rw [heq, hf]
    rw [hf] at hrow
    exact hrow
  · have := hs e.operation.path
    rw [hf] at this
    rw [heq]
    exact this

theorem sourced_of_merges (hST : T ⊆ S) {rows rows' : Rows}
    (h : Relation.ReflTransGen (MergesTo T) rows rows') (hs : ∀ q, Sourced S q (rows q)) :
    ∀ q, Sourced S q (rows' q) := by
  induction h with
  | refl => exact hs
  | tail _ hstep ih => exact hstep.sourced hST ih

namespace Swarm

/-- What holds in every swarm a run reaches. -/
structure Inv (owner : UserId) (w : Swarm K) : Prop extends Homes owner w where
  stamped : ∀ d, ∀ e ∈ w.entries d, e.operation.version.get d = e.sequence
  authored : ∀ d, ∀ e ∈ w.entries d, ∀ p f, e.operation = .upsert p f → f.author = d
  bounded : ∀ d, ∀ e ∈ w.entries d, w.Bounded e.operation.version
  rows : ∀ d q, Sourced (w.visible d) q ((w d).row q)
  distinct : ∀ d₁ d₂ e₁ e₂, e₁ ∈ w.entries d₁ → e₂ ∈ w.entries d₂ →
    e₁.operation.version.Same e₂.operation.version → d₁ = d₂ ∧ e₁ = e₂

theorem mem_entries_of_visible {r : DeviceId × LogEntry}
    (h : r ∈ w.visible d) : r.2 ∈ w.entries r.1:= by
  rcases h with h | ⟨rfl, h⟩
  · exact mem_entries_of_published h
  · exact h

/-- A row's version is bounded like the entries'. -/
theorem Inv.bounded_row (h : Inv owner w) (d : DeviceId) (q : Path) :
    w.Bounded ((w d).row q).version := by
  rcases (h.rows d q).exists_version with hr | ⟨r, hr, hv⟩
  · rw [hr]
    exact fun d' => by simp [Row.version]
  · rw [hv]
    exact h.bounded r.1 r.2 (mem_entries_of_visible hr)

/-- A stamp on top of a row is above it. -/
theorem Inv.row_lt (h : Inv owner w) (hs : Stamp (w d) e base) (hb : w.Bounded base)
    (hle : ((w d).row q).version ≤ base) : ((w d).row q).version < (e.row (w d).device).version := by
  have hnext : (w d).index.log.next = (w.entries d).length + 1 := (h.log d).counter
  rw [LogEntry.row_version, hs.version]
  refine VersionVector.lt_advanced hle ?_
  rw [h.device, hnext]
  exact Nat.lt_succ_of_le (hb d)

theorem Inv.bounded_seen (h : Inv owner w) (seen : DeviceId × ℕ) :
    w.Bounded (w.seenVersion seen) := by
  unfold seenVersion
  cases hs : (w.published seen.1)[seen.2]? with
  | none => exact fun d => by simp
  | some e => exact h.bounded seen.1 e (mem_entries_of_published (List.mem_of_getElem? hs))

theorem start_inv (owner : UserId) (chunker : DeviceId → Chunker) :
    Inv owner (start owner chunker : Swarm K) := by
  have he : ∀ d, (start owner chunker : Swarm K).entries d = [] := fun d => rfl
  refine ⟨⟨fun _ => rfl, fun _ => rfl, fun _ => rfl, fun _ _ => Or.inl rfl, fun _ => LogOk.new⟩,
    ?_, ?_, ?_, fun _ _ => trivial, ?_⟩
  · intro d e h
    rw [he] at h
    cases h
  · intro d e h
    rw [he] at h
    cases h
  · intro d e h
    rw [he] at h
    cases h
  · intro d₁ d₂ e₁ e₂ h
    rw [he] at h
    cases h

theorem Homes.update (h : Homes owner w)
    {st' : Store K} (hh : SameHome (w d) st') (hl : LogOk owner d st'.index.log) :
    Homes owner (Function.update w d st') where
  device := (Function.forall_update_iff w fun d' st => st.device = d').mpr
    ⟨hh.device.trans (h.device d), fun d' _ => h.device d'⟩
  owned := (Function.forall_update_iff w fun _ st => st.owner = owner).mpr
    ⟨hh.owner.trans (h.owned d), fun d' _ => h.owned d'⟩
  roster := (Function.forall_update_iff w fun _ st => st.index.roster = ∅).mpr
    ⟨hh.roster.trans (h.roster d), fun d' _ => h.roster d'⟩
  apart := (Function.forall_update_iff w fun _ st => st.tree.Apart).mpr
    ⟨hh.apart (h.apart d), fun d' _ => h.apart d'⟩
  log := (Function.forall_update_iff w fun d' st => LogOk owner d' st.index.log).mpr
    ⟨hl, fun d' _ => h.log d'⟩

section
variable {w : Swarm K} {d : DeviceId} {st' : Store K}

theorem entries_update (d' : DeviceId) :
    entries (Function.update w d st') d' =
      if d' = d then st'.index.log.entries else w.entries d' := by
  unfold entries
  by_cases h : d' = d
  · subst h
    simp
  · simp [h]

theorem published_update (d' : DeviceId) :
    published (Function.update w d st') d' =
      if d' = d then sealedEntries st'.segments else w.published d' := by
  unfold published
  by_cases h : d' = d
  · subst h
    simp
  · simp [h]

/-- **A step that logs at most one entry keeps the invariant**, if that entry is
stamped above everything its device has logged, what was published stays
published, and the rows come from what the device may have seen or has logged. -/
theorem Inv.update (h : Inv owner w) (hh : SameHome (w d) st')
    (hl : LogOk owner d st'.index.log) (added : Option LogEntry)
    (he : st'.index.log.entries = w.entries d ++ added.toList)
    (hp : ∀ x ∈ w.published d, x ∈ sealedEntries st'.segments)
    (hr : ∀ q, Sourced (w.visible d ∪ {r | r.1 = d ∧ r.2 ∈ added}) q (st'.row q))
    (ha : ∀ e ∈ added, e.operation.version.get d = e.sequence ∧
      e.sequence = (w.entries d).length + 1 ∧ (∀ p f, e.operation = .upsert p f → f.author = d) ∧
      ∀ d' ≠ d, e.operation.version.get d' ≤ (w.entries d').length) :
    Inv owner (Function.update w d st') := by
  have hmem : ∀ {d' e}, e ∈ entries (Function.update w d st') d' →
      e ∈ w.entries d' ∨ d' = d ∧ e ∈ added := by
    intro d' e hm
    rw [entries_update] at hm
    split_ifs at hm with hd
    · rw [he, List.mem_append, Option.mem_toList] at hm
      subst hd
      exact hm.imp_right fun k => ⟨rfl, k⟩
    · exact Or.inl hm
  have hlen : ∀ d', (w.entries d').length ≤ (entries (Function.update w d st') d').length := by
    intro d'
    rw [entries_update]
    split_ifs with hd
    · subst hd
      rw [he, List.length_append]
      omega
    · exact le_rfl
  have hpub : ∀ d', ∀ x ∈ w.published d', x ∈ published (Function.update w d st') d' := by
    intro d' x hx
    rw [published_update]
    split_ifs with hd
    · subst hd
      exact hp x hx
    · exact hx
  have hvis : ∀ d', w.visible d' ⊆ visible (Function.update w d st') d' := by
    rintro d' r (hr | ⟨hr, hm⟩)
    · exact Or.inl (hpub r.1 r.2 hr)
    · refine Or.inr ⟨hr, ?_⟩
      rw [entries_update]
      split_ifs with hd
      · subst hd
        rw [he]
        exact List.mem_append_left _ hm
      · exact hm
  refine ⟨h.toHomes.update hh hl, fun d' e hm => ?_, fun d' e hm => ?_, fun d' e hm d'' => ?_,
    ?_, fun d₁ d₂ e₁ e₂ h₁ h₂ hs => ?_⟩
  · rcases hmem hm with hold | ⟨rfl, hnew⟩
    · exact h.stamped d' e hold
    · exact (ha e hnew).1
  · rcases hmem hm with hold | ⟨rfl, hnew⟩
    · exact h.authored d' e hold
    · exact (ha e hnew).2.2.1
  · rcases hmem hm with hold | ⟨rfl, hnew⟩
    · exact (h.bounded d' e hold d'').trans (hlen d'')
    · obtain ⟨h1, h2, -, h4⟩ := ha e hnew
      by_cases hd : d'' = d'
      · subst hd
        rw [entries_update, if_pos rfl, he, h1, h2, List.length_append, Option.mem_def.mp hnew]
        simp
      · exact (h4 d'' hd).trans (hlen d'')
  · refine (Function.forall_update_iff w fun d' st =>
      ∀ q, Sourced (visible (Function.update w d st') d') q (st.row q)).mpr ⟨fun q => ?_, ?_⟩
    · refine (hr q).mono ?_
      rintro r (hold | ⟨rfl, hnew⟩)
      · exact hvis d hold
      · refine Or.inr ⟨rfl, ?_⟩
        rw [entries_update, if_pos rfl, he]
        exact List.mem_append_right _ (Option.mem_toList.mpr hnew)
    · exact fun d' _ q => (h.rows d' q).mono (hvis d')
  · -- the own component of a new entry is above that of any other
    rcases hmem h₁ with old₁ | ⟨hd₁, new₁⟩ <;> rcases hmem h₂ with old₂ | ⟨hd₂, new₂⟩
    · exact h.distinct d₁ d₂ e₁ e₂ old₁ old₂ hs
    · obtain ⟨k1, k2, -, -⟩ := ha e₂ new₂
      have hb := h.bounded d₁ e₁ old₁ d
      have := hs.2 d
      omega
    · obtain ⟨k1, k2, -, -⟩ := ha e₁ new₁
      have hb := h.bounded d₂ e₂ old₂ d
      have := hs.1 d
      omega
    · exact ⟨hd₁.trans hd₂.symm, Option.mem_unique new₁ new₂⟩

/-- An operation stamped on a bounded base is above everything its device logged. -/
theorem Inv.stamp (h : Inv owner w) (hs : Stamp (w d) e base) (hb : w.Bounded base) :
    e.operation.version.get d = e.sequence ∧ e.sequence = (w.entries d).length + 1 ∧
      (∀ p f, e.operation = .upsert p f → f.author = d) ∧
      ∀ d' ≠ d, e.operation.version.get d' ≤ (w.entries d').length := by
  have hdev := h.device d
  have hnext : (w d).index.log.next = (w.entries d).length + 1 := (h.log d).counter
  have hv : e.operation.version = base.advanced d ((w.entries d).length + 1) := by
    rw [hs.version, hdev, hnext]
  refine ⟨?_, by rw [hs.sequence, hnext], fun p f hop => by rw [hs.author p f hop, hdev],
    fun d' hd => ?_⟩
  · rw [hv, hs.sequence, hnext]
    exact VersionVector.get_advanced_self ((hb d).trans (Nat.le_succ _))
  · rw [hv, VersionVector.get_advanced_ne _ _ hd.symm]
    exact hb d'

theorem Inv.logged (h : Inv owner w)
    (hlog : Logged (w d) st' e) (hs : Stamp (w d) e base) (hb : w.Bounded base) :
    Inv owner (Function.update w d st') := by
  have hok : LogOk owner d (w d).index.log := h.log d
  have hentries : st'.index.log.entries = w.entries d ++ (some e).toList := by
    rw [hlog.log, hok.entries_pushPending hs.sequence]
    rfl
  refine h.update hlog.home (by rw [hlog.log]; exact hok.pushPending hs.sequence) (some e) hentries
    (hlog.logGrows hs (h.logOk d)).published (fun q => ?_) fun x hx => ?_
  · rw [hlog.row]
    by_cases hq : q = e.operation.path
    · subst hq
      rw [Function.update_self, h.device]
      exact sourced_row (Or.inr ⟨rfl, rfl⟩)
    · rw [Function.update_of_ne hq]
      exact (h.rows d q).mono Set.subset_union_left
  · cases hx
    exact h.stamp hs hb

theorem Inv.rearranged (h : Inv owner w) (hn : SameNode (w d) st')
    (hr : ∀ q, Sourced (w.visible d) q (st'.row q)) : Inv owner (Function.update w d st') := by
  refine h.update hn.toSameHome (by rw [hn.log]; exact h.log d) none ?_ hn.logGrows.published
    (fun q => (hr q).mono Set.subset_union_left) (by simp)
  rw [hn.log]
  exact (List.append_nil _).symm

end

theorem others_subset_visible (w : Swarm K) (d : DeviceId) : w.others d ⊆ w.visible d :=
  fun _ hr => Or.inl hr.2

theorem Bounded.merge {u v : VersionVector} (hu : w.Bounded u) (hv : w.Bounded v) :
    w.Bounded (u.merge v) := fun d => by
  rw [VersionVector.get_merge]
  exact max_le (hu d) (hv d)

/-- **Every act keeps the invariant.** -/
theorem inv_act (h : Inv owner w) (a : Act) : Inv owner (w.act a) := by
  have hm := act_moved h.toHomes a
  unfold act
  generalize w.acted a = st' at hm ⊢
  cases hm with
  | still a st' hu => exact h.rearranged hu.node fun q => by rw [hu.row]; exact h.rows _ q
  | wrote d path reader now entry st' hlog hstamp =>
    exact h.logged hlog hstamp (h.bounded_row d path)
  | removed d path now t f st' hrow hlog hstamp =>
    exact h.logged hlog hstamp (h.bounded_row d path)
  | removedUnheld d path seen now t st' hlog hstamp =>
    exact h.logged hlog hstamp ((h.bounded_row d path).merge (h.bounded_seen seen))
  | released d path now f st' hrow hnode hrow' =>
    refine h.rearranged hnode fun q => ?_
    rw [hrow']
    by_cases hq : q = path
    · subst hq
      rw [Function.update_self]
      trivial
    · rw [Function.update_of_ne hq]
      exact h.rows d q
  | flushed d segmentId e hs =>
    have hs' : LogOk.SealsPending owner d (w d).index.log e := by
      rw [h.owned, h.device] at hs
      exact hs
    refine h.update ⟨rfl, rfl, rfl, rfl, rfl, rfl, id⟩ ((h.log d).appended hs') none ?_
      ((h.logOk d).logGrows hs).published (fun q => (h.rows d q).mono Set.subset_union_left) (by simp)
    rw [Option.toList_none, List.append_nil]
    exact (h.log d).entries_appended hs'
  | merged d picks source now st' hnode hrows =>
    exact h.rearranged hnode (sourced_of_merges (others_subset_visible w d) hrows (h.rows d))

theorem run_inv (owner : UserId) (chunker : DeviceId → Chunker) (acts : List Act) :
    Inv owner ((start owner chunker : Swarm K).run acts) :=
  List.foldlRecOn acts _ (start_inv owner chunker) fun _ h a _ => inv_act h a

/-- The swarms that runs reach. -/
def Reachable (owner : UserId) (w : Swarm K) : Prop :=
  ∃ chunker acts, w = (start owner chunker).run acts

theorem Reachable.inv (h : Reachable owner w) : Inv owner w := by
  obtain ⟨chunker, acts, rfl⟩ := h
  exact run_inv owner chunker acts

theorem Reachable.run (h : Reachable owner w) (acts : List Act) :
    Reachable owner (w.run acts) := by
  obtain ⟨chunker, before, rfl⟩ := h
  exact ⟨chunker, before ++ acts, by rw [Swarm.run, Swarm.run, ← List.foldl_append]; rfl⟩

/-- **Versions identify operations.** In every swarm a run reaches: two logged
upserts with `Equal` versions are one operation of one device; every live entry
anywhere is a logged upsert; an operation's component for its own device is its
sequence number; and along a device's log, whatever the paths, that component
goes up from each operation to every later one. -/
theorem version_identity (owner : UserId) (chunker : DeviceId → Chunker) (acts : List Act) :
    let w : Swarm K := (start owner chunker).run acts
    (∀ d₁ d₂ e₁ e₂ p f₁ f₂, e₁ ∈ w.entries d₁ → e₂ ∈ w.entries d₂ →
      e₁.operation = .upsert p f₁ → e₂.operation = .upsert p f₂ →
      f₁.version.compare f₂.version = .equal → d₁ = d₂ ∧ e₁ = e₂ ∧ f₁ = f₂) ∧
    (∀ d q f, (w d).getFile q = some f →
      ∃ d', ∃ e ∈ w.entries d', ∃ p, e.operation = .upsert p f ∧ f.author = d') ∧
    (∀ d, ∀ e ∈ w.entries d, e.operation.version.get d = e.sequence ∧
      (∀ p f, e.operation = .upsert p f → f.author = d)) ∧
    ∀ d, (w.entries d).Pairwise fun e e' =>
      e.operation.version.get d < e'.operation.version.get d := by
  have h := run_inv (K := K) owner chunker acts
  refine ⟨?_, ?_, fun d e he => ⟨h.stamped d e he, h.authored d e he⟩, fun d => ?_⟩
  · intro d₁ d₂ e₁ e₂ p f₁ f₂ h₁ h₂ hop₁ hop₂ hc
    have hsame : e₁.operation.version.Same e₂.operation.version := by
      rw [hop₁, hop₂]
      exact VersionVector.compare_eq_equal.mp hc
    obtain ⟨rfl, rfl⟩ := h.distinct d₁ d₂ e₁ e₂ h₁ h₂ hsame
    rw [hop₁] at hop₂
    exact ⟨rfl, rfl, by cases hop₂; rfl⟩
  · intro d q f hf
    have hs := h.rows d q
    rw [Store.getFile_eq_some.mp hf] at hs
    obtain ⟨r, hr, p, hp⟩ := hs
    have hm := mem_entries_of_visible hr
    exact ⟨r.1, r.2, hm, p, hp, h.authored r.1 r.2 hm p f hp⟩
  · refine List.Pairwise.imp_of_mem ?_ (h.log d).sequence_lt
    intro e e' he he' hlt
    rw [h.stamped d e he, h.stamped d e' he']
    exact hlt

end Swarm

end Itsanas
