/-
# Devices that have seen everything agree

Two devices that have applied everything published, and find nothing more to do,
should have the same files. The difficulty is that nothing but the rows remembers
what was applied, that a conflict's loser lives on at a path no log mentions, and that
a device never applies its own entries: they were put in place when they were made.

`Absorbed` says what rows have kept of an operation, and for as long as the operations
are in `Harmony` no merge and no local write undoes it. An operation that a device has
settled is absorbed, and so are its own. Rows that are `Tidy` and have absorbed every
operation hold the same files (`agree`).

Without harmony they need not. A device that edits a file twice before it hears of
another's edit keeps one copy of its own beside the winner, and every other device
keeps two (`Swarm.superseded_loser_stays`).
-/
import Itsanas.Settle

namespace Itsanas

variable {r : DeviceId × LogEntry} {op : Operation}

section Operations
variable {ops : List (DeviceId × LogEntry)} {rows rows' : Rows}

/-! ### Operations -/

/-- One version takes a path from another: neither knows of the other, and the order of
authorships is for it. -/
def FileEntry.Beats (f g : FileEntry) : Prop :=
  f.version.Apart g.version ∧ winsOriginalPath f.authorship g.authorship = true

instance (f g : FileEntry) : Decidable (f.Beats g) := inferInstanceAs (Decidable (_ ∧ _))

variable {f g : FileEntry}

theorem FileEntry.Beats.asymm (h : f.Beats g) : ¬g.Beats f := fun k => by
  have := winsOriginalPath_asymm h.2
  rw [k.2] at this
  cases this

theorem FileEntry.Beats.irrefl (f : FileEntry) : ¬f.Beats f := fun h => h.asymm h

/-- The operation is a write that beats `l`. -/
def Operation.Beats : Operation → FileEntry → Prop
  | .upsert _ f, l => f.Beats l
  | .remove _ _, _ => False

instance : ∀ (op : Operation) (l : FileEntry), Decidable (op.Beats l)
  | .upsert _ f, l => inferInstanceAs (Decidable (f.Beats l))
  | .remove _ _, _ => inferInstanceAs (Decidable False)

/-- The versions that another version of their path beats. -/
def beaten (versions : List (Path × FileEntry)) : List (Path × FileEntry) :=
  versions.filter fun x => ∃ y ∈ versions, y.1 = x.1 ∧ y.2.Beats x.2

variable {p : Path} {l : FileEntry}

theorem mem_beaten {versions : List (Path × FileEntry)} :
    (p, l) ∈ beaten versions ↔ (p, l) ∈ versions ∧ ∃ f, (p, f) ∈ versions ∧ f.Beats l := by
  simp only [beaten, List.mem_filter, decide_eq_true_eq]
  refine and_congr_right fun _ => ⟨?_, ?_⟩
  · rintro ⟨⟨q, f⟩, hf, rfl, hb⟩
    exact ⟨f, hf, hb⟩
  · rintro ⟨f, hf, hb⟩
    exact ⟨(p, f), hf, rfl, hb⟩

/-- Versions and authorships tell operations apart. -/
structure Distinct (ops : List (DeviceId × LogEntry)) : Prop where
  version : ∀ r ∈ ops, ∀ s ∈ ops, r.2.operation.version.Same s.2.operation.version → r = s
  authorship : ∀ x ∈ upserts ops, ∀ y ∈ upserts ops, x.2.authorship = y.2.authorship → x = y

/-- Nothing supersedes a version that is beaten; what supersedes the version that beats
it is a write that beats it too; deletes that did not know of each other knew the same
versions; nothing is for the place of a beaten version, and no two have one place. -/
structure Harmony (ops : List (DeviceId × LogEntry)) : Prop where
  unsuperseded : ∀ x ∈ beaten (upserts ops), ∀ r ∈ ops, r.2.operation.path = x.1 →
    ¬x.2.version < r.2.operation.version
  defended : ∀ x ∈ upserts ops, ∀ y ∈ upserts ops, y.1 = x.1 → y.2.Beats x.2 →
    ∀ r ∈ ops, r.2.operation.path = x.1 → y.2.version < r.2.operation.version →
      r.2.operation.Beats x.2
  deletes : ∀ x ∈ removes ops, ∀ y ∈ removes ops, x.1 = y.1 → x.2.Apart y.2 →
    ∀ z ∈ upserts ops, z.1 = x.1 → z.2.version ≤ x.2 → z.2.version ≤ y.2
  untouched : ∀ x ∈ beaten (upserts ops), ∀ r ∈ ops, siblingOf x.1 x.2 ≠ r.2.operation.path
  places : ∀ x ∈ beaten (upserts ops), ∀ y ∈ beaten (upserts ops),
    siblingOf x.1 x.2 = siblingOf y.1 y.2 → x.2.version.Same y.2.version

instance (ops : List (DeviceId × LogEntry)) : Decidable (Harmony ops) :=
  decidable_of_iff (_ ∧ _ ∧ _ ∧ _ ∧ _)
    ⟨fun h => ⟨h.1, h.2.1, h.2.2.1, h.2.2.2.1, h.2.2.2.2⟩, fun h => ⟨h.1, h.2, h.3, h.4, h.5⟩⟩

variable {f : FileEntry}

theorem upsert_of_beaten (h : (p, f) ∈ beaten (upserts ops)) :
    ∃ r ∈ ops, r.2.operation = .upsert p f :=
  mem_upserts.mp (mem_beaten.mp h).1

section
variable (hd : Distinct ops)
include hd

theorem Distinct.upsert_inj {p q : Path} (hf : (p, f) ∈ upserts ops)
    (hg : (q, g) ∈ upserts ops) (h : f.version.Same g.version) : p = q ∧ f = g := by
  obtain ⟨r, hr, hop⟩ := mem_upserts.mp hf
  obtain ⟨s, hs, hop'⟩ := mem_upserts.mp hg
  obtain rfl := hd.version r hr s hs (by rw [hop, hop']; exact h)
  rw [hop] at hop'
  cases hop'
  exact ⟨rfl, rfl⟩

/-- An operation knows no other version without superseding it. -/
theorem Distinct.lt_of_le (hf : (p, f) ∈ upserts ops)
    (hr : r ∈ ops) (hne : r.2.operation ≠ .upsert p f)
    (hle : f.version ≤ r.2.operation.version) : f.version < r.2.operation.version := by
  obtain ⟨s, hs, hop⟩ := mem_upserts.mp hf
  refine lt_iff_le_not_ge.mpr ⟨hle, fun hge => hne ?_⟩
  obtain rfl := hd.version r hr s hs (by rw [hop]; exact ⟨hge, hle⟩)
  exact hop

/-- Of two versions of a path that do not know of each other one beats the other. -/
theorem Distinct.beats_or (hf : (p, f) ∈ upserts ops)
    (hg : (p, g) ∈ upserts ops) (h : f.version.Apart g.version) : f.Beats g ∨ g.Beats f := by
  have hne : f.authorship ≠ g.authorship := fun heq => by
    cases hd.authorship _ hf _ hg heq
    exact h.1 le_rfl
  exact (winsOriginalPath_total hne).imp (fun k => ⟨h, k⟩) fun k => ⟨h.symm, k⟩

end

variable {v : VersionVector}

section
variable (hd : Distinct ops) (hh : Harmony ops)
include hd hh

/-- What knows of a beaten version is that version. -/
theorem eq_of_beaten_le (hl : (p, l) ∈ beaten (upserts ops))
    (hr : r ∈ ops) (hp : r.2.operation.path = p)
    (hle : l.version ≤ r.2.operation.version) : r.2.operation = .upsert p l := by
  by_contra hne
  exact hh.unsuperseded _ hl r hr hp (hd.lt_of_le (mem_beaten.mp hl).1 hr hne hle)

theorem eq_of_beaten_le_upsert {l f : FileEntry}
    (hl : (p, l) ∈ beaten (upserts ops)) (hf : (p, f) ∈ upserts ops)
    (hle : l.version ≤ f.version) : f = l := by
  obtain ⟨r, hr, hop⟩ := mem_upserts.mp hf
  have h := eq_of_beaten_le hd hh hl hr (by rw [hop]; rfl) (by rw [hop]; exact hle)
  rw [hop] at h
  cases h
  rfl

theorem not_beaten_le_remove (hl : (p, l) ∈ beaten (upserts ops))
    (hv : (p, v) ∈ removes ops) : ¬l.version ≤ v := by
  intro hle
  obtain ⟨r, hr, hop⟩ := mem_removes.mp hv
  have h := eq_of_beaten_le hd hh hl hr (by rw [hop]; rfl) (by rw [hop]; exact hle)
  rw [hop] at h
  cases h

theorem place_inj {p q : Path} {l m : FileEntry} (hl : (p, l) ∈ beaten (upserts ops))
    (hm : (q, m) ∈ beaten (upserts ops)) (h : siblingOf p l = siblingOf q m) : p = q ∧ l = m :=
  hd.upsert_inj (mem_beaten.mp hl).1 (mem_beaten.mp hm).1 (hh.places _ hl _ hm h)

/-- What knows of the version that beats another beats it as well. -/
theorem beats_of_le {f l : FileEntry} (hf : (p, f) ∈ upserts ops)
    (hl : (p, l) ∈ upserts ops) (hb : f.Beats l) (hr : r ∈ ops)
    (hp : r.2.operation.path = p) (hle : f.version ≤ r.2.operation.version) :
    r.2.operation.Beats l := by
  by_cases hop : r.2.operation = .upsert p f
  · rw [hop]
    exact hb
  · exact hh.defended _ hl _ hf rfl hb r hr hp (hd.lt_of_le hf hr hop hle)

/-- What beats the version that beats another beats it as well. -/
theorem beats_trans {f g l : FileEntry} (hf : (p, f) ∈ upserts ops)
    (hg : (p, g) ∈ upserts ops) (hl : (p, l) ∈ upserts ops) (hgf : g.Beats f) (hfl : f.Beats l) :
    g.Beats l := by
  have hw := winsOriginalPath_trans hgf.2 hfl.2
  refine ⟨⟨fun hle => ?_, fun hle => ?_⟩, hw⟩
  · -- `l` would know of what beats `f`, and so beat `f`
    obtain ⟨r, hr, hop⟩ := mem_upserts.mp hl
    have h := beats_of_le hd hh hg hf hgf hr (by rw [hop]; rfl) (by rw [hop]; exact hle)
    rw [hop] at h
    exact hfl.asymm h
  · obtain rfl := eq_of_beaten_le_upsert hd hh (mem_beaten.mpr ⟨hl, f, hf, hfl⟩) hg hle
    exact hgf.asymm hfl

/-- A version that nothing beats is known to every version that is not known, and not
beaten, where it is known. -/
theorem le_of_unbeaten {f u : FileEntry} (hf : (p, f) ∈ upserts ops)
    (hn : (p, f) ∉ beaten (upserts ops)) (hu : (p, u) ∈ upserts ops)
    (hr : r ∈ ops) (hp : r.2.operation.path = p) (hle : f.version ≤ r.2.operation.version)
    (hb : ¬r.2.operation.Beats u) (hnle : ¬u.version ≤ r.2.operation.version) :
    f.version ≤ u.version := by
  by_contra hfu
  have hapart : f.version.Apart u.version := ⟨hfu, fun k => hnle (k.trans hle)⟩
  rcases hd.beats_or hf hu hapart with h | h
  · exact hb (beats_of_le hd hh hf hu h hr hp hle)
  · exact hn (mem_beaten.mpr ⟨hf, u, hu, h⟩)

end

/-! ### Rows in order -/

/-- Every row is an operation's or a beaten version in its place, and beside every beaten
version in its place stands one that beats it. -/
structure Tidy (ops : List (DeviceId × LogEntry)) (rows : Rows) : Prop where
  file : ∀ q f, rows q = .file f →
    (q, f) ∈ upserts ops ∨ ∃ p, (p, f) ∈ beaten (upserts ops) ∧ q = siblingOf p f
  gone : ∀ q t, rows q = .gone t → (q, t.version) ∈ removes ops
  winner : ∀ p l, (p, l) ∈ beaten (upserts ops) → rows (siblingOf p l) ≠ .absent →
    ∃ f, rows p = .file f ∧ f.Beats l

/-- What the rows have kept of an operation. Of a beaten version: it is at its path or in
its place. Of another: the row knows it. Of a delete: what is live it did not know, and
what it knew is known deleted. -/
def Absorbed (ops : List (DeviceId × LogEntry)) (rows : Rows) : Operation → Prop
  | .upsert p f =>
    ((p, f) ∈ beaten (upserts ops) → rows p = .file f ∨ rows (siblingOf p f) = .file f) ∧
    ((p, f) ∉ beaten (upserts ops) → rows p ≠ .absent ∧ f.version ≤ (rows p).version)
  | .remove p v =>
    rows p ≠ .absent ∧ (∀ f, rows p = .file f → ¬f.version ≤ v) ∧
      ∀ t, rows p = .gone t → ∀ f, (p, f) ∈ upserts ops → f.version ≤ v → f.version ≤ t.version

/-- The row of the operation's path gives way to it. -/
def GivesWay (rows : Rows) : Operation → Prop
  | .upsert p f => rows p = .absent ∨ (∃ t, rows p = .gone t ∧ ¬f.version ≤ t.version) ∨
      ∃ g, rows p = .file g ∧ g.version < f.version
  | .remove p v => rows p = .absent ∨ (∃ t, rows p = .gone t ∧ ¬v ≤ t.version) ∨
      ∃ g, rows p = .file g ∧ g.version ≤ v

/-- A file that gives way is known to what it gives way to. -/
theorem GivesWay.le (h : GivesWay rows op) (hf : rows op.path = .file f) : f.version ≤ op.version:= by
  cases op with
  | upsert p u =>
    rcases h with h | ⟨t, h, -⟩ | ⟨g, h, hlt⟩ <;> cases hf.symm.trans h
    exact hlt.le
  | remove p v =>
    rcases h with h | ⟨t, h, -⟩ | ⟨g, h, hle⟩ <;> cases hf.symm.trans h
    exact hle

/-- A delete that gives way does not know what it gives way to. -/
theorem GivesWay.not_le (h : GivesWay rows op) {t : Tombstone}
    (ht : rows op.path = .gone t) : ¬op.version ≤ t.version := by
  cases op with
  | upsert p u =>
    rcases h with h | ⟨t', h, hnle⟩ | ⟨g, h, -⟩ <;> cases ht.symm.trans h
    exact hnle
  | remove p v =>
    rcases h with h | ⟨t', h, hnle⟩ | ⟨g, h, -⟩ <;> cases ht.symm.trans h
    exact hnle

section
variable (hd : Distinct ops) (hh : Harmony ops) (ht : Tidy ops rows) {r s : DeviceId × LogEntry}
  (hr : r ∈ ops) (hs : s ∈ ops)

include hh ht hr in
/-- What is live at the path of an operation is an operation's. -/
theorem Tidy.upsert (hp : r.2.operation.path = p) (hf : rows p = .file f) : (p, f) ∈ upserts ops:= by
  rcases ht.file _ f hf with h | ⟨q, hq, rfl⟩
  · exact h
  · exact absurd hp.symm (hh.untouched _ hq r hr)

include hh ht in
theorem Tidy.upsert_of_mem {l f : FileEntry} (hl : (p, l) ∈ upserts ops)
    (hf : rows p = .file f) : (p, f) ∈ upserts ops := by
  obtain ⟨r, hr, hop⟩ := mem_upserts.mp hl
  exact ht.upsert hh hr (by rw [hop]; rfl) hf

include hd hh ht in
/-- What is in a beaten version's place is that version. -/
theorem Tidy.in_place (hl : (p, l) ∈ beaten (upserts ops))
    (hne : rows (siblingOf p l) ≠ .absent) : rows (siblingOf p l) = .file l := by
  cases hrow : rows (siblingOf p l) with
  | absent => exact absurd hrow hne
  | gone t =>
    obtain ⟨r, hr, hop⟩ := mem_removes.mp (ht.gone _ t hrow)
    exact absurd (by rw [hop]; rfl) (hh.untouched _ hl r hr)
  | file f =>
    rcases ht.file _ f hrow with h | ⟨q, hq, heq⟩
    · obtain ⟨r, hr, hop⟩ := mem_upserts.mp h
      exact absurd (by rw [hop]; rfl) (hh.untouched _ hl r hr)
    · rw [(place_inj hd hh hl hq heq).2]

/-! ### Taking an operation in -/

include hd hh ht hr in
theorem Tidy.adopt (hg : GivesWay rows r.2.operation) :
    Tidy ops (Function.update rows r.2.operation.path (r.2.row r.1)) := by
  refine ⟨fun q f hq => ?_, fun q t hq => ?_, fun p l hl hne => ?_⟩
  · by_cases hp : q = r.2.operation.path
    · subst hp
      rw [Function.update_self] at hq
      exact Or.inl (mem_upserts.mpr ⟨r, hr, LogEntry.operation_of_row_file hq⟩)
    · rw [Function.update_of_ne hp] at hq
      exact ht.file q f hq
  · by_cases hp : q = r.2.operation.path
    · subst hp
      rw [Function.update_self] at hq
      exact mem_removes.mpr ⟨r, hr, LogEntry.operation_of_row_gone hq⟩
    · rw [Function.update_of_ne hp] at hq
      exact ht.gone q t hq
  · rw [Function.update_of_ne (hh.untouched _ hl r hr)] at hne
    obtain ⟨f, hf, hb⟩ := ht.winner p l hl hne
    by_cases hp : p = r.2.operation.path
    · -- what supersedes the winner beats the loser too
      subst hp
      have hlu := (mem_beaten.mp hl).1
      have hfu := ht.upsert hh hr rfl hf
      have h := beats_of_le hd hh hfu hlu hb hr rfl (hg.le hf)
      rw [Function.update_self]
      cases hop : r.2.operation with
      | upsert p u =>
        rw [hop] at h
        exact ⟨u, LogEntry.row_upsert hop r.1, h⟩
      | remove p v =>
        rw [hop] at h
        exact h.elim
    · exact ⟨f, by rw [Function.update_of_ne hp, hf], hb⟩

omit hr hs in
/-- Rows that are the same at a path, and have its beaten versions still in their places,
have kept of its operations what they had. -/
theorem Absorbed.congr (h : Absorbed ops rows op) (hrow : rows' op.path = rows op.path)
    (hplace : ∀ f, (op.path, f) ∈ beaten (upserts ops) → rows (siblingOf op.path f) = .file f →
      rows' (siblingOf op.path f) = .file f) : Absorbed ops rows' op := by
  cases op with
  | upsert p f =>
    refine ⟨fun hc => ?_, fun hn => ?_⟩
    · exact (h.1 hc).imp hrow.trans (hplace f hc)
    · rw [show rows' p = rows p from hrow]
      exact h.2 hn
  | remove p v =>
    rw [Absorbed, show rows' p = rows p from hrow]
    exact h

include hd hh ht hr in
/-- A version that nothing beats, known where something gives way, is known to what it
gives way to. -/
theorem le_of_givesWay (hg : GivesWay rows r.2.operation)
    (hf : (r.2.operation.path, f) ∈ upserts ops)
    (hn : (r.2.operation.path, f) ∉ beaten (upserts ops)) (hne : rows r.2.operation.path ≠ .absent)
    (hle : f.version ≤ (rows r.2.operation.path).version) : f.version ≤ r.2.operation.version := by
  cases hrow : rows r.2.operation.path with
  | absent => exact absurd hrow hne
  | file g =>
    rw [hrow] at hle
    exact hle.trans (hg.le hrow)
  | gone t =>
    rw [hrow] at hle
    have hnle := hg.not_le hrow
    have hrem := ht.gone _ t hrow
    cases hop : r.2.operation with
    | upsert p u =>
      rw [hop] at hf hn hnle hrem
      obtain ⟨s, hs, hops⟩ := mem_removes.mp hrem
      exact le_of_unbeaten hd hh hf hn (mem_upserts.mpr ⟨r, hr, hop⟩) hs (by rw [hops]; rfl)
        (by rw [hops]; exact hle) (by rw [hops]; exact id) (by rw [hops]; exact hnle)
    | remove p v =>
      rw [hop] at hf hnle hrem
      by_cases htv : t.version ≤ v
      · exact hle.trans htv
      · exact hh.deletes _ hrem _ (mem_removes.mpr ⟨r, hr, hop⟩) rfl ⟨htv, hnle⟩ _ hf rfl hle

include hh ht hr hs in
/-- Where a delete is absorbed and something gives way, it stays absorbed. -/
theorem Absorbed.remove_adopt (hg : GivesWay rows r.2.operation)
    (hop : s.2.operation = .remove r.2.operation.path v)
    (ha : Absorbed ops rows (.remove r.2.operation.path v)) :
    Absorbed ops (Function.update rows r.2.operation.path (r.2.row r.1))
      (.remove r.2.operation.path v) := by
  obtain ⟨hne, hlive, hdead⟩ := ha
  rw [Absorbed, Function.update_self]
  refine ⟨LogEntry.row_ne_absent _ _, fun f hf hle => ?_, fun t hrow f hf hle => ?_⟩
  · -- a version taken in was not known to the delete
    have hopr := LogEntry.operation_of_row_file hf
    rw [hopr] at hg
    rcases hg with h | ⟨t, h, hnle⟩ | ⟨g, h, hlt⟩
    · exact hne h
    · exact hnle (hdead t h f (mem_upserts.mpr ⟨r, hr, hopr⟩) hle)
    · exact hlive g h (hlt.le.trans hle)
  · -- a delete taken in knows what the delete knew
    have hopr := LogEntry.operation_of_row_gone hrow
    have hv : (r.2.operation.path, v) ∈ removes ops := mem_removes.mpr ⟨s, hs, hop⟩
    have ht' : (r.2.operation.path, t.version) ∈ removes ops := mem_removes.mpr ⟨r, hr, hopr⟩
    rw [hopr] at hg
    rcases hg with h | ⟨t', h, hnle⟩ | ⟨g, h, hge⟩
    · exact absurd h hne
    · have hft := hdead t' h f hf hle
      by_cases htt : t'.version ≤ t.version
      · exact hft.trans htt
      · exact hh.deletes _ (ht.gone _ t' h) _ ht' rfl ⟨htt, hnle⟩ _ hf rfl hft
    · by_cases hvt : v ≤ t.version
      · exact hle.trans hvt
      · have htv : ¬t.version ≤ v := fun k => hlive g h (hge.trans k)
        exact hh.deletes _ hv _ ht' rfl ⟨hvt, htv⟩ _ hf rfl hle

include hd hh ht hr hs in
/-- **What gives way leaves what was absorbed absorbed.** -/
theorem Absorbed.adopt (hg : GivesWay rows r.2.operation) (ha : Absorbed ops rows s.2.operation) :
    Absorbed ops (Function.update rows r.2.operation.path (r.2.row r.1)) s.2.operation := by
  by_cases hp : s.2.operation.path = r.2.operation.path
  · cases hop : s.2.operation with
    | upsert p f =>
      have hf : (p, f) ∈ upserts ops := mem_upserts.mpr ⟨s, hs, hop⟩
      rw [hop] at hp ha
      obtain rfl : p = r.2.operation.path := hp
      refine ⟨fun hc => ?_, fun hn => ?_⟩
      · rcases ha.1 hc with hrow | hrow
        · -- nothing but itself knows of a beaten version
          refine Or.inl ?_
          have hop' := eq_of_beaten_le hd hh hc hr rfl (hg.le hrow)
          rw [Function.update_self, LogEntry.row_upsert hop']
        · refine Or.inr ?_
          rwa [Function.update_of_ne (hh.untouched _ hc r hr)]
      · obtain ⟨hne, hle⟩ := ha.2 hn
        rw [Function.update_self, LogEntry.row_version]
        exact ⟨LogEntry.row_ne_absent _ _, le_of_givesWay hd hh ht hr hg hf hn hne hle⟩
    | remove p v =>
      have hop' := hop
      rw [hop] at hp ha
      obtain rfl : p = r.2.operation.path := hp
      exact ha.remove_adopt hh ht hr hs hg hop'
  · exact ha.congr (Function.update_of_ne hp _ _) fun f hc hf => by
      rwa [Function.update_of_ne (hh.untouched _ hc r hr)]

omit hr hs in
/-- What is taken in is absorbed. -/
theorem absorbed_self (ops : List (DeviceId × LogEntry)) (rows : Rows) (r : DeviceId × LogEntry) :
    Absorbed ops (Function.update rows r.2.operation.path (r.2.row r.1)) r.2.operation := by
  cases hop : r.2.operation with
  | upsert p f =>
    rw [LogEntry.row_upsert hop]
    refine ⟨fun _ => Or.inl (Function.update_self _ _ _), fun _ => ?_⟩
    rw [show (Operation.upsert p f).path = p from rfl, Function.update_self]
    exact ⟨by simp, le_rfl⟩
  | remove p v =>
    have hv : (r.2.tombstone r.1).version = v := by simp [LogEntry.tombstone, hop, Operation.version]
    rw [LogEntry.row_remove hop, Absorbed, show (Operation.remove p v).path = p from rfl,
      Function.update_self]
    refine ⟨by simp, fun f hf => (by cases hf), fun t hrow f _ hle => ?_⟩
    cases hrow
    rwa [hv]

end

/-! ### Putting two versions side by side -/

/-- A conflict at a path: who is there, who comes, who stays. -/
structure Clash (ops : List (DeviceId × LogEntry)) (rows : Rows) (p : Path)
    (present remote winner : FileEntry) : Prop where
  row : rows p = .file present
  here : (p, present) ∈ upserts ops
  comes : (p, remote) ∈ upserts ops
  stays : place rows p present remote p = .file winner
  beats : winner.Beats (loserOf present remote)
  either : winner = present ∧ loserOf present remote = remote ∨
    winner = remote ∧ loserOf present remote = present

/-- A conflict the engine comes to is one. -/
theorem exists_clash (hd : Distinct ops) (hh : Harmony ops) (ht : Tidy ops rows)
    (hr : r ∈ ops) {present remote : FileEntry}
    (hop : r.2.operation = .upsert p remote) (hrow : rows p = .file present)
    (hapart : present.version.Apart remote.version) :
    ∃ winner, Clash ops rows p present remote winner := by
  have hremote : (p, remote) ∈ upserts ops := mem_upserts.mpr ⟨r, hr, hop⟩
  have hpresent : (p, present) ∈ upserts ops := ht.upsert_of_mem hh hremote hrow
  by_cases hw : winsOriginalPath remote.authorship present.authorship = true
  · have hl : loserOf present remote = present := if_pos hw
    refine ⟨remote, hrow, hpresent, hremote, ?_, ?_, Or.inr ⟨rfl, hl⟩⟩
    · rw [place, if_pos hw, Function.update_self]
    · rw [hl]
      exact ⟨hapart.symm, hw⟩
  · have hl : loserOf present remote = remote := if_neg hw
    refine ⟨present, hrow, hpresent, hremote, ?_, ?_, Or.inl ⟨rfl, hl⟩⟩
    · rw [place, if_neg hw, Function.update_of_ne (siblingOf_ne _ _).symm, hrow]
    · rw [hl]
      exact (hd.beats_or hpresent hremote hapart).resolve_right fun h => hw h.2

section
variable (hd : Distinct ops) (hh : Harmony ops) (ht : Tidy ops rows) {p : Path}
  {present remote winner : FileEntry} (hc : Clash ops rows p present remote winner)
include hc

theorem Clash.winner_mem : (p, winner) ∈ upserts ops := by
  rcases hc.either with ⟨h, -⟩ | ⟨h, -⟩ <;> rw [h]
  · exact hc.here
  · exact hc.comes

theorem Clash.loser_beaten : (p, loserOf present remote) ∈ beaten (upserts ops) := by
  refine mem_beaten.mpr ⟨?_, winner, hc.winner_mem, hc.beats⟩
  rcases hc.either with ⟨-, h⟩ | ⟨-, h⟩ <;> rw [h]
  · exact hc.comes
  · exact hc.here

include hd hh in
/-- The place of another version is left as it is. -/
theorem Clash.other_place {q : Path} (hl : (q, l) ∈ beaten (upserts ops))
    (hne : ¬(q = p ∧ l = loserOf present remote)) :
    place rows p present remote (siblingOf q l) = rows (siblingOf q l) := by
  obtain ⟨r, hr, hop⟩ := mem_upserts.mp hc.here
  have hp : siblingOf q l ≠ p := fun h => hh.untouched _ hl r hr (by rw [hop]; exact h)
  exact place_of_ne hp fun heq => hne (place_inj hd hh hl hc.loser_beaten heq)

include hh in
/-- So is every other path that operations are for. -/
theorem Clash.other_path (hr : r ∈ ops) (hne : r.2.operation.path ≠ p) :
    place rows p present remote r.2.operation.path = rows r.2.operation.path :=
  place_of_ne hne fun heq => hh.untouched _ hc.loser_beaten r hr heq.symm

include hd hh in
/-- What the one that was there beats, the one that stays beats. -/
theorem Clash.still_beats (hl : (p, l) ∈ upserts ops) (hb : present.Beats l) :
    winner.Beats l := by
  rcases hc.either with ⟨h, -⟩ | ⟨-, h⟩
  · rwa [h]
  · have hwp := hc.beats
    rw [h] at hwp
    exact beats_trans hd hh hc.here hc.winner_mem hl hwp hb

include hd hh ht in
theorem Clash.tidy : Tidy ops (place rows p present remote) := by
  refine ⟨fun q f hq => ?_, fun q t hq => ?_, fun q l hl hne => ?_⟩
  · by_cases hqp : q = p
    · rw [hqp, hc.stays] at hq
      cases hq
      exact Or.inl (hqp ▸ hc.winner_mem)
    · by_cases hqs : q = siblingOf p (loserOf present remote)
      · rw [hqs, place_sibling] at hq
        cases hq
        exact Or.inr ⟨p, hc.loser_beaten, hqs⟩
      · rw [place_of_ne hqp hqs] at hq
        exact ht.file q f hq
  · by_cases hqp : q = p
    · rw [hqp, hc.stays] at hq
      cases hq
    · by_cases hqs : q = siblingOf p (loserOf present remote)
      · rw [hqs, place_sibling] at hq
        cases hq
      · rw [place_of_ne hqp hqs] at hq
        exact ht.gone q t hq
  · by_cases hsame : q = p ∧ l = loserOf present remote
    · obtain ⟨rfl, rfl⟩ := hsame
      exact ⟨winner, hc.stays, hc.beats⟩
    · rw [hc.other_place hd hh hl hsame] at hne
      obtain ⟨f, hf, hb⟩ := ht.winner q l hl hne
      by_cases hqp : q = p
      · subst hqp
        cases hc.row.symm.trans hf
        exact ⟨winner, hc.stays, hc.still_beats hd hh (mem_beaten.mp hl).1 hb⟩
      · obtain ⟨r, hr, hop⟩ := upsert_of_beaten hl
        have hp : r.2.operation.path = q := congrArg Operation.path hop
        refine ⟨f, ?_, hb⟩
        rw [← hp, hc.other_path hh hr (hp ▸ hqp), hp, hf]

include hd hh in
/-- The version that stays knows what the one that was there knew, if nothing beats it. -/
theorem Clash.le_winner (hf : (p, f) ∈ upserts ops)
    (hn : (p, f) ∉ beaten (upserts ops)) (hle : f.version ≤ present.version) :
    f.version ≤ winner.version := by
  rcases hc.either with ⟨h, -⟩ | ⟨hw, h⟩
  · rwa [h]
  · have hb := hc.beats
    rw [h] at hb
    obtain ⟨r, hr, hop⟩ := mem_upserts.mp hc.here
    exact le_of_unbeaten hd hh hf hn hc.winner_mem hr (congrArg Operation.path hop)
      (by rw [hop]; exact hle) (by rw [hop]; exact hb.asymm) (by rw [hop]; exact hb.1.1)

include hd hh in
/-- The version that stays is unknown to the deletes that the one that was there was
unknown to. -/
theorem Clash.not_le_remove {s : DeviceId × LogEntry} (hs : s ∈ ops)
    (hop : s.2.operation = .remove p v) (hn : ¬present.version ≤ v) : ¬winner.version ≤ v := by
  rcases hc.either with ⟨h, -⟩ | ⟨hw, h⟩
  · rwa [h]
  · intro hle
    have hb := hc.beats
    rw [h] at hb
    have := beats_of_le hd hh hc.winner_mem hc.here hb hs (congrArg Operation.path hop)
      (by rw [hop]; exact hle)
    rwa [hop] at this

include hd hh in
/-- **A conflict leaves what was absorbed absorbed.** -/
theorem Clash.absorbed {s : DeviceId × LogEntry} (hs : s ∈ ops)
    (ha : Absorbed ops rows s.2.operation) :
    Absorbed ops (place rows p present remote) s.2.operation := by
  by_cases hp : s.2.operation.path = p
  · cases hop : s.2.operation with
    | upsert q f =>
      have hf : (q, f) ∈ upserts ops := mem_upserts.mpr ⟨s, hs, hop⟩
      rw [hop] at hp ha
      obtain rfl : q = p := hp
      refine ⟨fun hb => ?_, fun hn => ?_⟩
      · by_cases hw : winner = f
        · exact Or.inl (hw ▸ hc.stays)
        · refine Or.inr ?_
          by_cases hl : f = loserOf present remote
          · rw [hl, place_sibling]
          · -- neither of the two: it has its place from before
            rw [hc.other_place hd hh hb fun h => hl h.2]
            refine (ha.1 hb).resolve_left fun hrow => ?_
            cases hc.row.symm.trans hrow
            rcases hc.either with ⟨h, -⟩ | ⟨-, h⟩
            · exact hw h
            · exact hl h.symm
      · obtain ⟨-, hle⟩ := ha.2 hn
        rw [hc.row] at hle
        rw [hc.stays]
        exact ⟨by simp, hc.le_winner hd hh hf hn hle⟩
    | remove q v =>
      have hop' := hop
      rw [hop] at hp ha
      obtain rfl : q = p := hp
      rw [Absorbed, hc.stays]
      refine ⟨by simp, fun f hf => ?_, fun t h => by cases h⟩
      cases hf
      exact hc.not_le_remove hd hh hs hop' (ha.2.1 present hc.row)
  · refine ha.congr (hc.other_path hh hs hp) fun f hb hf => ?_
    rw [hc.other_place hd hh hb fun h => hp h.1, hf]

end

/-! ### Merging and settling -/

section
variable (hd : Distinct ops) (hh : Harmony ops) (ht : Tidy ops rows) {r s : DeviceId × LogEntry}
  (hr : r ∈ ops)
include hd hh ht hr

/-- **A merge of an operation leaves the rows in order, and what was absorbed absorbed.** -/
theorem merge_tidy : Tidy ops (merge r.1 rows r.2).1 ∧
    ∀ s ∈ ops, Absorbed ops rows s.2.operation →
      Absorbed ops (merge r.1 rows r.2).1 s.2.operation := by
  have hm := merge_merged r.1 rows r.2
  generalize (merge r.1 rows r.2).1 = rows' at hm ⊢
  generalize (merge r.1 rows r.2).2 = applied at hm
  cases hm with
  | known | dead | placed | lost | deadAlready => exact ⟨ht, fun _ _ => id⟩
  | adopted path remote hop hrow =>
    have hp : r.2.operation.path = path := congrArg Operation.path hop
    have hg : GivesWay rows r.2.operation := by rw [hop]; exact hrow
    rw [← hp, ← LogEntry.row_upsert hop r.1]
    exact ⟨ht.adopt hd hh hr hg, fun s hs ha => ha.adopt hd hh ht hr hs hg⟩
  | removed path v hop hrow =>
    have hp : r.2.operation.path = path := congrArg Operation.path hop
    have hg : GivesWay rows r.2.operation := by rw [hop]; exact hrow
    rw [← hp, ← LogEntry.row_remove hop r.1]
    exact ⟨ht.adopt hd hh hr hg, fun s hs ha => ha.adopt hd hh ht hr hs hg⟩
  | conflicted path remote present hop hrow hapart hplaced =>
    obtain ⟨winner, hc⟩ := exists_clash hd hh ht hr hop hrow hapart
    exact ⟨hc.tidy hd hh ht, fun s hs ha => hc.absorbed hd hh hs ha⟩

/-- **A settled operation is absorbed.** -/
theorem absorbed_of_settled (hset : Settled r.1 rows r.2) : Absorbed ops rows r.2.operation := by
  have hm := merge_merged r.1 rows r.2
  unfold Settled at hset
  generalize (merge r.1 rows r.2).1 = rows' at hm
  generalize (merge r.1 rows r.2).2 = applied at hm hset
  cases hm with
  | known path remote present a hop hrow hle ha =>
    have hpresent := ht.upsert hh hr (congrArg Operation.path hop) hrow
    rw [hop]
    refine ⟨fun hb => Or.inl ?_, fun _ => by rw [hrow]; exact ⟨by simp, hle⟩⟩
    rw [hrow, eq_of_beaten_le_upsert hd hh hb hpresent hle]
  | dead path remote t hop hrow hle =>
    rw [hop]
    refine ⟨fun hb => ?_, fun _ => by rw [hrow]; exact ⟨by simp, hle⟩⟩
    exact absurd hle (not_beaten_le_remove hd hh hb (ht.gone path t hrow))
  | placed path remote present hop hrow hapart hplaced =>
    obtain ⟨winner, hc⟩ := exists_clash hd hh ht hr hop hrow hapart
    obtain ⟨f, hf, -⟩ := hplaced
    have hne : rows (siblingOf path (loserOf present remote)) ≠ .absent := by rw [hf]; simp
    have hin := ht.in_place hd hh hc.loser_beaten hne
    rcases hc.either with ⟨-, h⟩ | ⟨-, h⟩
    · have hb := hc.loser_beaten
      rw [h] at hin hb
      rw [hop]
      exact ⟨fun _ => Or.inr hin, fun hn => absurd hb hn⟩
    · -- the one at the path cannot be in its place: one that beats it would be there
      obtain ⟨g, hg, hb⟩ := ht.winner path _ hc.loser_beaten hne
      cases hrow.symm.trans hg
      rw [h] at hb
      exact absurd hb (FileEntry.Beats.irrefl _)
  | lost path v present hop hrow hle =>
    rw [hop, Absorbed, hrow]
    refine ⟨by simp, fun f hf => ?_, fun t h => by cases h⟩
    cases hf
    exact hle
  | deadAlready path v t a hop hrow hle ha =>
    rw [hop, Absorbed, hrow]
    refine ⟨by simp, fun f hf => (by cases hf), fun t' h f _ hfv => ?_⟩
    cases h
    exact hfv.trans hle
  | adopted | conflicted | removed => exact hset.elim

end

section
variable (ht : Tidy ops rows) (ha : ∀ r ∈ ops, Absorbed ops rows r.2.operation)
include ha

theorem absorbed_upsert (hf : (p, f) ∈ upserts ops) :
    Absorbed ops rows (.upsert p f) := by
  obtain ⟨r, hr, hop⟩ := mem_upserts.mp hf
  exact hop ▸ ha r hr

theorem absorbed_remove (hv : (p, v) ∈ removes ops) :
    Absorbed ops rows (.remove p v) := by
  obtain ⟨r, hr, hop⟩ := mem_removes.mp hv
  exact hop ▸ ha r hr

include ht in
/-- Where every operation is absorbed, what is live at a path is any other version of it,
beats it or knows it. -/
theorem Tidy.live_cases (hf : rows p = .file f)
    (hg : (p, g) ∈ upserts ops) : f = g ∨ f.Beats g ∨ g.version ≤ f.version := by
  by_cases hb : (p, g) ∈ beaten (upserts ops)
  · rcases (absorbed_upsert ha hg).1 hb with h | h
    · cases hf.symm.trans h
      exact Or.inl rfl
    · obtain ⟨f', hf', hfg⟩ := ht.winner p g hb (by rw [h]; simp)
      cases hf.symm.trans hf'
      exact Or.inr (Or.inl hfg)
  · have hle := ((absorbed_upsert ha hg).2 hb).2
    rw [hf] at hle
    exact Or.inr (Or.inr hle)

include ht in
theorem Tidy.unbeaten (hf : rows p = .file f) (hg : (p, g) ∈ upserts ops) : ¬g.Beats f:= by
  intro hgf
  rcases ht.live_cases ha hf hg with rfl | hfg | hle
  · exact FileEntry.Beats.irrefl _ hgf
  · exact hgf.asymm hfg
  · exact hgf.1.1 hle

end

/-- **Rows in order that have absorbed every operation have the same files.** -/
theorem agree (hd : Distinct ops) (hh : Harmony ops) (ht : Tidy ops rows) (ht' : Tidy ops rows')
    (ha : ∀ r ∈ ops, Absorbed ops rows r.2.operation)
    (ha' : ∀ r ∈ ops, Absorbed ops rows' r.2.operation) {q : Path}
    (hq : rows q = .file f) : rows' q = .file f := by
  rcases ht.file q f hq with hf | ⟨p, hl, rfl⟩
  · by_cases hb : (q, f) ∈ beaten (upserts ops)
    · -- in its place there it would be beaten here
      refine ((absorbed_upsert ha' hf).1 hb).resolve_right fun h => ?_
      obtain ⟨g, hg, hgf⟩ := ht'.winner q f hb (by rw [h]; simp)
      exact ht.unbeaten ha hq (ht'.upsert_of_mem hh hf hg) hgf
    · obtain ⟨hne, hle⟩ := (absorbed_upsert ha' hf).2 hb
      cases hrow : rows' q with
      | absent => exact absurd hrow hne
      | gone t =>
        -- the delete there would have taken it here
        rw [hrow] at hle
        exact absurd hle ((absorbed_remove ha (ht'.gone q t hrow)).2.1 f hq)
      | file g =>
        rw [hrow] at hle
        have hg := ht'.upsert_of_mem hh hf hrow
        rcases ht.live_cases ha hq hg with rfl | hfg | hgf
        · rfl
        · exact absurd hle hfg.1.1
        · rw [(hd.upsert_inj hf hg ⟨hle, hgf⟩).2]
  · -- at its path there it would be beaten by the winner here
    have hlu := (mem_beaten.mp hl).1
    obtain ⟨w, hw, hwf⟩ := ht.winner p f hl (by rw [hq]; simp)
    refine ((absorbed_upsert ha' hlu).1 hl).resolve_left fun h => ?_
    exact ht'.unbeaten ha' h (ht.upsert_of_mem hh hlu hw) hwf

end Operations

/-! ### Runs -/

variable {K : Crypto}

/-- The acts of an account whose devices write, delete, flush and apply. -/
def Act.Plain : Act → Prop
  | .release _ _ _ | .removeUnheld _ _ _ _ => False
  | _ => True

instance : ∀ a : Act, Decidable a.Plain
  | .release _ _ _ | .removeUnheld _ _ _ _ => inferInstanceAs (Decidable False)
  | .write _ _ _ _ | .remove _ _ _ | .flush _ _ | .apply _ _ _ _ => inferInstanceAs (Decidable True)

namespace Swarm

/-- Everything the devices have published. -/
def ops (w : Swarm K) (devices : List DeviceId) : List (DeviceId × LogEntry) :=
  devices.flatMap fun d => (w.published d).map (Prod.mk d)

theorem mem_ops {w : Swarm K} {devices : List DeviceId} {d : DeviceId} {e : LogEntry} :
    (d, e) ∈ w.ops devices ↔ d ∈ devices ∧ e ∈ w.published d := by
  simp only [ops, List.mem_flatMap, List.mem_map, Prod.mk.injEq]
  constructor
  · rintro ⟨d', hd', e', he', rfl, rfl⟩
    exact ⟨hd', he'⟩
  · rintro ⟨hd, he⟩
    exact ⟨d, hd, e, he, rfl, rfl⟩

theorem run_logGrows {owner : UserId} (d : DeviceId) : ∀ (acts : List Act) {w : Swarm K},
    Inv owner w → LogGrows (w d) (w.run acts d)
  | [], _, _ => .rfl
  | a :: acts, _, h => (act_logGrows h.toHomes a d).trans (run_logGrows d acts (inv_act h a))

/-- A device that does not act stays as it is. -/
theorem run_idle (d : DeviceId) : ∀ (acts : List Act) (w : Swarm K), (∀ a ∈ acts, a.device ≠ d) →
    w.run acts d = w d
  | [], _, _ => rfl
  | a :: acts, w, h => by
    rw [run, List.foldl_cons]
    exact (run_idle d acts (w.act a) fun b hb => h b (List.mem_cons_of_mem _ hb)).trans
      (act_other w (h a List.mem_cons_self).symm)

end Swarm

/-- The rows are in order, and have absorbed everything the store has logged. -/
def Ordered (ops : List (DeviceId × LogEntry)) (st : Store K) : Prop :=
  Tidy ops st.row ∧ ∀ e ∈ st.index.log.entries, Absorbed ops st.row e.operation

theorem givesWay_of_lt {rows : Rows} (h : (rows op.path).version < op.version) :
    GivesWay rows op := by
  have hnle := (lt_iff_le_not_ge.mp h).2
  cases op with
  | upsert p f =>
    cases hrow : rows p with
    | absent => exact Or.inl hrow
    | gone t =>
      rw [show rows (Operation.upsert p f).path = _ from hrow] at hnle
      exact Or.inr (Or.inl ⟨t, hrow, hnle⟩)
    | file g =>
      rw [show rows (Operation.upsert p f).path = _ from hrow] at h
      exact Or.inr (Or.inr ⟨g, hrow, h⟩)
  | remove p v =>
    cases hrow : rows p with
    | absent => exact Or.inl hrow
    | gone t =>
      rw [show rows (Operation.remove p v).path = _ from hrow] at hnle
      exact Or.inr (Or.inl ⟨t, hrow, hnle⟩)
    | file g =>
      rw [show rows (Operation.remove p v).path = _ from hrow] at h
      exact Or.inr (Or.inr ⟨g, hrow, h.le⟩)

namespace Swarm
variable {owner : UserId} {w : Swarm K} {d : DeviceId}

theorem start_ordered (ops : List (DeviceId × LogEntry)) (owner : UserId)
    (chunker : DeviceId → Chunker) (d : DeviceId) :
    Ordered ops ((start owner chunker : Swarm K) d) := by
  have hrow : ∀ q, ((start owner chunker : Swarm K) d).row q = .absent := fun q => rfl
  refine ⟨⟨fun q f h => ?_, fun q t h => ?_, fun p l _ h => absurd (hrow _) h⟩, fun e he => ?_⟩
  · cases (hrow q).symm.trans h
  · cases (hrow q).symm.trans h
  · exact absurd he List.not_mem_nil

section
variable {ops : List (DeviceId × LogEntry)} (hd : Distinct ops) (hh : Harmony ops)
include hd hh

/-- A store that logs an operation on top of its row stays in order. -/
theorem Inv.logged_ordered (h : Inv owner w) {st' : Store K} {e : LogEntry} {base : VersionVector}
    (hl : Logged (w d) st' e) (hs : Stamp (w d) e base) (hb : w.Bounded base)
    (hle : ((w d).row e.operation.path).version ≤ base)
    (hown : ∀ x ∈ st'.index.log.entries, (d, x) ∈ ops) (ho : Ordered ops (w d)) :
    Ordered ops st' := by
  have hentries : st'.index.log.entries = (w d).index.log.entries ++ [e] := by
    rw [hl.log, (h.log d).entries_pushPending hs.sequence]
  have he : (d, e) ∈ ops := hown e (by simp [hentries])
  have hg : GivesWay (w d).row e.operation := givesWay_of_lt (by
    have := h.row_lt hs hb hle
    rwa [LogEntry.row_version] at this)
  have hrow : st'.row = Function.update (w d).row e.operation.path (e.row d) := by
    rw [hl.row, h.device]
  refine ⟨by rw [hrow]; exact ho.1.adopt hd hh he hg, fun x hx => ?_⟩
  have hx' := hown x hx
  rw [hentries, List.mem_append, List.mem_singleton] at hx
  rw [hrow]
  rcases hx with hx | rfl
  · exact (ho.2 x hx).adopt hd hh ho.1 he hx' hg
  · exact absorbed_self ops (w d).row (d, x)

theorem merges_tidy {S : Set (DeviceId × LogEntry)} (hS : ∀ r ∈ S, r ∈ ops) {rows rows' : Rows}
    (h : Relation.ReflTransGen (MergesTo S) rows rows') (ht : Tidy ops rows) :
    Tidy ops rows' ∧
      ∀ s ∈ ops, Absorbed ops rows s.2.operation → Absorbed ops rows' s.2.operation := by
  induction h with
  | refl => exact ⟨ht, fun _ _ => id⟩
  | tail _ hstep ih =>
    obtain ⟨r, hr, rfl⟩ := hstep
    obtain ⟨htidy, habs⟩ := merge_tidy hd hh ih.1 (hS r hr)
    exact ⟨htidy, fun s hs ha => habs s hs (ih.2 s hs ha)⟩

/-- **Every act keeps every store in order**, as far as the operations contain what is
published and what the store has logged. -/
theorem act_ordered (h : Inv owner w) {a : Act} (ha : a.Plain)
    (hpub : ∀ d', ∀ x ∈ w.published d', (d', x) ∈ ops)
    (hown : ∀ x ∈ (w.act a).entries d, (d, x) ∈ ops) (ho : Ordered ops (w d)) :
    Ordered ops (w.act a d) := by
  by_cases hdev : d = a.device
  swap
  · rwa [act_other w hdev]
  subst hdev
  unfold entries at hown
  rw [act_self] at hown ⊢
  have hm := act_moved h.toHomes a
  generalize w.acted a = st' at hm hown ⊢
  cases hm with
  | still a st' hu =>
    unfold Ordered
    rw [hu.row, hu.node.log]
    exact ho
  | wrote d path reader now entry st' hlog hstamp =>
    exact h.logged_ordered hd hh hlog hstamp (h.bounded_row d path) le_rfl hown ho
  | removed d path now t f st' hrow hlog hstamp =>
    exact h.logged_ordered hd hh hlog hstamp (h.bounded_row d path) le_rfl hown ho
  | removedUnheld => exact ha.elim
  | released => exact ha.elim
  | flushed d segmentId e hs =>
    refine ⟨ho.1, fun x hx => ho.2 x ?_⟩
    have hsame := (h.logOk d).entries_appended hs
    exact hsame ▸ hx
  | merged d picks source now st' hnode hrows =>
    obtain ⟨ht, hkeep⟩ := merges_tidy hd hh (fun r hr => hpub r.1 r.2 hr.2) hrows ho.1
    refine ⟨ht, fun x hx => hkeep (d, x) (hown x hx) (ho.2 x ?_)⟩
    rwa [hnode.log] at hx

theorem run_ordered (d : DeviceId) : ∀ (acts : List Act) {w : Swarm K}, Inv owner w →
    (∀ a ∈ acts, a.Plain) → (∀ d', ∀ x ∈ (w.run acts).published d', (d', x) ∈ ops) →
    (∀ x ∈ (w.run acts).entries d, (d, x) ∈ ops) → Ordered ops (w d) → Ordered ops (w.run acts d)
  | [], _, _, _, _, _, ho => ho
  | a :: acts, w, h, hplain, hpub, hown, ho => by
    have hrest := fun d' => run_logGrows d' acts (inv_act h a)
    refine run_ordered d acts (inv_act h a) (fun b hb => hplain b (List.mem_cons_of_mem _ hb)) hpub
      hown (act_ordered hd hh h (hplain a List.mem_cons_self) (fun d' x hx => ?_) (fun x hx => ?_) ho)
    · exact hpub d' x ((hrest d').published x ((act_logGrows h.toHomes a d').published x hx))
    · exact hown x ((hrest d).entries x hx)

end

/-! ### Agreement -/

theorem Inv.distinct_ops (h : Inv owner w) (devices : List DeviceId) : Distinct (w.ops devices) := by
  have hmem : ∀ r ∈ w.ops devices, r.2 ∈ w.entries r.1 := fun r hr =>
    mem_entries_of_published (mem_ops.mp hr).2
  refine ⟨fun r hr s hs hv => ?_, fun x hx y hy ha => ?_⟩
  · obtain ⟨h1, h2⟩ := h.distinct r.1 s.1 r.2 s.2 (hmem r hr) (hmem s hs) hv
    exact Prod.ext h1 h2
  · -- an author's sequence numbers tell its operations apart
    obtain ⟨r, hr, hop⟩ := mem_upserts.mp hx
    obtain ⟨s, hs, hop'⟩ := mem_upserts.mp hy
    have hauthor := h.authored r.1 r.2 (hmem r hr) _ _ hop
    have hauthor' := h.authored s.1 s.2 (hmem s hs) _ _ hop'
    have hdev : r.1 = s.1 := by
      rw [← hauthor, ← hauthor']
      exact congrArg Prod.fst ha
    have hstamp := h.stamped r.1 r.2 (hmem r hr)
    have hstamp' := h.stamped s.1 s.2 (hmem s hs)
    rw [hop] at hstamp
    rw [hop'] at hstamp'
    have hseq : r.2.sequence = s.2.sequence := by
      rw [← hstamp, ← hstamp', ← hdev]
      have := congrArg Prod.snd ha
      simp only [FileEntry.authorship, hauthor, hauthor', ← hdev] at this
      exact this
    have hs' := hmem s hs
    rw [← hdev] at hs'
    have heq := (h.log r.1).sequence_inj (hmem r hr) hs' hseq
    rw [heq, hop'] at hop
    obtain ⟨hp, hf⟩ := Operation.upsert.inj hop
    exact Prod.ext hp.symm hf.symm

/-- Handed everything published, the device finds nothing to do. -/
def Quiescent (w : Swarm K) (d : DeviceId) : Prop :=
  ∃ segments source now st' report outcomes, (∀ d', ∀ e ∈ (w d').segments, e ∈ segments) ∧
    applySegments (w d) segments source now = (st', .ok (report, outcomes)) ∧
    report.changedAnything = false ∧ report.deferred = 0

/-- What others have published is settled on a device with nothing to do. -/
theorem Quiescent.settled (h : Inv owner w) (hq : w.Quiescent d)
    (hr : r ∈ w.others d) : Settled r.1 (w d).row r.2 := by
  obtain ⟨segments, source, now, st', report, outcomes, hall, hrun, hc, hdef⟩ := hq
  obtain ⟨-, hset⟩ := applySegments_quiet hrun hc hdef
  obtain ⟨envelope, hm, hx⟩ := List.mem_flatMap.mp hr.2
  have hdev : envelope.device = r.1 := ((h.log r.1).opens envelope hm).2.1
  have := hset envelope (hall r.1 envelope hm) (by rw [hdev, h.device]; exact hr.1)
    (by simp [Store.mayApplyChainOf, h.roster]) r.2 hx
  rwa [hdev] at this

/-- Stores with the same live rows do not differ. -/
theorem diff_eq_nil_of_row {left right : Store K}
    (h : ∀ q f, left.row q = .file f ↔ right.row q = .file f) : diff left right = [] := by
  refine diff_eq_nil (Std.ExtTreeMap.ext_getElem? fun {q} => Option.ext fun f => ?_)
  exact Store.getFile_eq_some.trans ((h q f).trans Store.getFile_eq_some.symm)

section
variable {chunker : DeviceId → Chunker} {acts : List Act} {devices : List DeviceId}

/-- Only devices that act publish. -/
theorem mem_devices_of_segment (hdev : ∀ a ∈ acts, a.device ∈ devices) {e : SegmentEnvelope K}
    (he : e ∈ ((start owner chunker).run acts d).segments) : d ∈ devices := by
  by_contra hn
  rw [run_idle d acts _ fun a ha h => hn (h ▸ hdev a ha)] at he
  exact absurd he List.not_mem_nil

/-- The chains of all devices. -/
def chains (w : Swarm K) (devices : List DeviceId) : List (SegmentEnvelope K) :=
  devices.flatMap fun d => (w d).segments

theorem mem_chains (hdev : ∀ a ∈ acts, a.device ∈ devices) {e : SegmentEnvelope K}
    (he : e ∈ ((start owner chunker).run acts d).segments) :
    e ∈ ((start owner chunker).run acts).chains devices :=
  List.mem_flatMap.mpr ⟨d, mem_devices_of_segment hdev he, he⟩

/-- A device with nothing pending and nothing to do has everything in order and has
absorbed everything published. -/
theorem quiescent_absorbed (hplain : ∀ a ∈ acts, a.Plain) (hdev : ∀ a ∈ acts, a.device ∈ devices)
    {w : Swarm K} (hw : w = (start owner chunker).run acts) (hh : Harmony (w.ops devices))
    (hp : (w d).index.log.pendingEntries = []) (hq : w.Quiescent d) :
    Tidy (w.ops devices) (w d).row ∧
      ∀ r ∈ w.ops devices, Absorbed (w.ops devices) (w d).row r.2.operation := by
  have hinv : Inv owner w := hw ▸ run_inv owner chunker acts
  have hpub : ∀ d', ∀ x ∈ w.published d', (d', x) ∈ w.ops devices := by
    intro d' x hx
    obtain ⟨e, he, -⟩ := List.mem_flatMap.mp hx
    exact mem_ops.mpr ⟨mem_devices_of_segment hdev (hw ▸ he), hx⟩
  have hown : w.entries d = w.published d := by
    show sealedEntries _ ++ (w d).index.log.pendingEntries = _
    rw [hp, List.append_nil]
    rfl
  have hd := hinv.distinct_ops devices
  have ho : Ordered (w.ops devices) (w d) := by
    have := run_ordered hd hh d acts (start_inv owner chunker) hplain (hw ▸ hpub)
      (fun x hx => hpub d x (hown ▸ hw ▸ hx)) (start_ordered _ owner chunker d)
    rwa [← hw] at this
  refine ⟨ho.1, fun r hr => ?_⟩
  have hx := (mem_ops.mp hr).2
  by_cases hrd : r.1 = d
  · exact ho.2 r.2 (by subst hrd; exact mem_entries_of_published hx)
  · exact absorbed_of_settled hd hh ho.1 hr (hq.settled hinv ⟨hrd, hx⟩)

/-- **Devices that have seen everything agree.** Devices write, delete, flush and apply
what the others have published in any order. Two of them with nothing left to publish,
for which an application of everything published finds nothing to do, do not differ, if
what is published is in harmony. -/
theorem converges (hplain : ∀ a ∈ acts, a.Plain) (hdev : ∀ a ∈ acts, a.device ∈ devices)
    {w : Swarm K} (hw : w = (start owner chunker).run acts) (hh : Harmony (w.ops devices))
    {a b : DeviceId} (hpa : (w a).index.log.pendingEntries = [])
    (hpb : (w b).index.log.pendingEntries = []) (hqa : w.Quiescent a) (hqb : w.Quiescent b) :
    diff (w a) (w b) = [] := by
  have hinv : Inv owner w := hw ▸ run_inv owner chunker acts
  have hd := hinv.distinct_ops devices
  obtain ⟨hta, haa⟩ := quiescent_absorbed hplain hdev hw hh hpa hqa
  obtain ⟨htb, hab⟩ := quiescent_absorbed hplain hdev hw hh hpb hqb
  exact diff_eq_nil_of_row fun q f =>
    ⟨agree hd hh hta htb haa hab, agree hd hh htb hta hab haa⟩

end

/-- Two devices write one path apart, the winner twice; they apply everything, the winner
edits the path once more, and the first deletes a third device's file. -/
def editedOn : List Act :=
  [.write 1 "p".toList [.data [1]] 5, .flush 1 11,
    .write (2 ^ 255) "p".toList [.data [2]] 5, .write (2 ^ 255) "p".toList [.data [4]] 5,
    .flush (2 ^ 255) 11, .write 3 "q".toList [.data [3]] 5, .flush 3 11,
    .apply 1 [(2 ^ 255, 0), (3, 0)] oneByteSource 6,
    .apply (2 ^ 255) [(1, 0), (3, 0)] oneByteSource 6,
    .write (2 ^ 255) "p".toList [.data [5]] 7, .flush (2 ^ 255) 12,
    .remove 1 "q".toList 7, .flush 1 12,
    .apply 1 [(2 ^ 255, 1)] oneByteSource 8, .apply (2 ^ 255) [(1, 1)] oneByteSource 8,
    .apply 3 [(1, 0), (1, 1), (2 ^ 255, 0), (2 ^ 255, 1)] oneByteSource 8]

/-- The loser of a conflict writes twice before it hears of the other's edit. -/
def editedTwice : List Act :=
  [.write 1 "p".toList [.data [1]] 5, .write 1 "p".toList [.data [3]] 6, .flush 1 11,
    .write 2 "p".toList [.data [2]] 5, .flush 2 11,
    .apply 1 [(2, 0)] oneByteSource 7, .apply 2 [(1, 0)] oneByteSource 7]

/-- Where the acts lead from empty stores. -/
def after (acts : List Act) : Swarm symbolic := (start 7 fun _ => fourBytes).run acts

/-- The call succeeded and reports nothing. -/
def foundNothing : Except SyncError (SyncReport × List Outcome) → Bool
  | .ok (report, _) => !report.changedAnything && report.deferred = 0
  | .error _ => false

theorem after_quiescent {acts : List Act} {devices : List DeviceId}
    (hdev : ∀ a ∈ acts, a.device ∈ devices) {d : DeviceId}
    (h : foundNothing (applySegments (after acts d) ((after acts).chains devices) oneByteSource 9).2 =
      true) : (after acts).Quiescent d := by
  generalize hrun : applySegments (after acts d) ((after acts).chains devices) oneByteSource 9 = run
    at h
  obtain ⟨st', error | ⟨report, outcomes⟩⟩ := run
  · cases h
  · simp only [foundNothing, Bool.and_eq_true, Bool.not_eq_true', decide_eq_true_eq] at h
    exact ⟨_, _, _, _, _, _, fun _ _ he => mem_chains hdev he, hrun, h⟩

theorem converges_editedOn :
    Harmony ((after editedOn).ops [1, 3, 2 ^ 255]) ∧
      ((after editedOn 3).getFile (siblingPath "p".toList 1 1)).isSome ∧
      diff (after editedOn 1) (after editedOn 3) = [] := by
  have hdev : ∀ a ∈ editedOn, a.device ∈ [1, 3, 2 ^ 255] := by decide +kernel
  have hh : Harmony ((after editedOn).ops [1, 3, 2 ^ 255]) := by decide +kernel
  exact ⟨hh, by decide +kernel, converges (by decide +kernel) hdev rfl hh (by decide +kernel)
    (by decide +kernel) (after_quiescent hdev (by decide +kernel))
    (after_quiescent hdev (by decide +kernel))⟩

/-- The second device keeps both versions it beat, the first the one it had; neither has
anything to publish, and nothing is left to do. -/
theorem superseded_loser_stays :
    (after editedTwice 1).index.log.pendingEntries = [] ∧
      (after editedTwice 2).index.log.pendingEntries = [] ∧
      (after editedTwice).Quiescent 1 ∧ (after editedTwice).Quiescent 2 ∧
      diff (after editedTwice 1) (after editedTwice 2) =
        [.onlyOnRight (siblingPath "p".toList 1 1)] := by
  have hdev : ∀ a ∈ editedTwice, a.device ∈ [1, 2] := by decide +kernel
  exact ⟨by decide +kernel, by decide +kernel, after_quiescent hdev (by decide +kernel),
    after_quiescent hdev (by decide +kernel), by decide +kernel⟩

end Swarm

end Itsanas
