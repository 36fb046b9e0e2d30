/-
# Version vectors

`itsanas-store/src/version.rs`: every version of a file carries a map from
device to the highest sequence number of that device its author knew. An
absent device reads as 0 (`VersionVector.get`), so what matters of a vector is
its components, and `v ≤ w` says that `w` knows everything `v` knows. The code's
`dominates` decides that order (`dominates_iff`), and its `compare` is the
four-way verdict of it (`compare_eq`). Two vectors can be equal in this order
and differ as maps: a component of 0 may be present or absent.
-/
import Itsanas.Lib.Table

namespace Itsanas

/-- A 32-byte identifier, read as a big-endian number: the order of the bytes
is the order of the numbers. -/
abbrev Id : Type := Fin (2 ^ 256)

instance Id.neZero : NeZero (2 ^ 256) := ⟨by decide⟩

instance Id.transCmp : Std.TransCmp (compare : Id → Id → Ordering) := inferInstance

instance Id.transCmpPair : Std.TransCmp (compare : Id ×ₗ Id → Id ×ₗ Id → Ordering) := inferInstance

instance Id.transCmpNumbered : Std.TransCmp (compare : ℕ ×ₗ Id → ℕ ×ₗ Id → Ordering) := inferInstance

instance Id.transCmpCounted : Std.TransCmp (compare : Id ×ₗ ℕ → Id ×ₗ ℕ → Ordering) := inferInstance

instance Id.transCmpRow :
    Std.TransCmp (compare : Id ×ₗ Id ×ₗ ℕ → Id ×ₗ Id ×ₗ ℕ → Ordering) :=
  inferInstance

instance Id.lawfulBEq : LawfulBEq Id := inferInstance

instance Id.transCmpStamped :
    Std.TransCmp (compare : Id ×ₗ ℕ ×ₗ Id → Id ×ₗ ℕ ×ₗ Id → Ordering) :=
  inferInstance

abbrev DeviceId : Type := Id
abbrev UserId : Type := Id
abbrev ChunkId : Type := Id
abbrev ObjectId : Type := Id

/-- The largest `u64`. -/
def u64Max : ℕ := 2 ^ 64 - 1

def u32Max : ℕ := 2 ^ 32 - 1

def saturatingAdd (a b : ℕ) : ℕ := min (a + b) u64Max

/-- The eight bytes of keyed hash that order a peer's holdings for the audit. -/
abbrev AuditTag : Type := Fin (2 ^ 64)

instance AuditTag.neZero : NeZero (2 ^ 64) := ⟨by decide⟩

instance AuditTag.transCmpKey :
    Std.TransCmp (compare : Id ×ₗ AuditTag ×ₗ Id → Id ×ₗ AuditTag ×ₗ Id → Ordering) :=
  inferInstance

/-- How two versions relate causally. -/
inductive CausalOrder
  | equal
  | before
  | after
  | concurrent
  deriving DecidableEq, Repr

/-- A map from device to the highest sequence number observed from it. -/
structure VersionVector where
  entries : Table DeviceId ℕ
  deriving DecidableEq

namespace VersionVector

/-- An empty vector: knows about nothing. -/
def new : VersionVector := ⟨∅⟩

/-- The highest sequence observed from `device`, or 0. -/
def get (v : VersionVector) (device : DeviceId) : ℕ := (v.entries[device]?).getD 0

/-- Record that `device` has reached `sequence`; never moves backwards. -/
def observe (v : VersionVector) (device : DeviceId) (sequence : ℕ) : VersionVector :=
  ⟨v.entries.insert device (max (v.get device) sequence)⟩

/-- The componentwise maximum with `other`. -/
def merge (v other : VersionVector) : VersionVector :=
  other.entries.toList.foldl (fun acc r => acc.observe r.1 r.2) v

/-- Whether this vector knows everything `other` knows. -/
def dominates (v other : VersionVector) : Bool :=
  other.entries.toList.all fun r => r.2 ≤ v.get r.1

/-- Compare two versions causally. -/
def compare (v other : VersionVector) : CausalOrder :=
  match v.dominates other, other.dominates v with
  | true, true => .equal
  | true, false => .after
  | false, true => .before
  | false, false => .concurrent

/-- The vector produced by `device` writing at `sequence`, on top of this one. -/
def advanced (v : VersionVector) (device : DeviceId) (sequence : ℕ) : VersionVector :=
  v.observe device sequence

/-! ### The components -/

@[simp] theorem get_new (d : DeviceId) : new.get d = 0 := rfl

theorem get_observe (v : VersionVector) (d e : DeviceId) (s : ℕ) :
    (v.observe d s).get e = if d = e then max (v.get d) s else v.get e := by
  simp only [get, observe, Table.getElem?_insert']
  split_ifs <;> rfl

theorem get_advanced (v : VersionVector) (d e : DeviceId) (s : ℕ) :
    (v.advanced d s).get e = if d = e then max (v.get d) s else v.get e :=
  get_observe v d e s

theorem get_advanced_self {v : VersionVector} {d : DeviceId} {s : ℕ} (h : v.get d ≤ s) :
    (v.advanced d s).get d = s := by
  rw [get_advanced, if_pos rfl, max_eq_right h]

theorem get_advanced_ne (v : VersionVector) {d e : DeviceId} (s : ℕ) (h : d ≠ e) :
    (v.advanced d s).get e = v.get e := by
  rw [get_advanced, if_neg h]

/-! ### The causal order -/

instance : Preorder VersionVector where
  le v w := ∀ d, v.get d ≤ w.get d
  le_refl _ _ := le_rfl
  le_trans _ _ _ h k d := (h d).trans (k d)

variable {v w : VersionVector}

theorem le_def : v ≤ w ↔ ∀ d, v.get d ≤ w.get d := Iff.rfl

/-- `dominates` looks at the other side's rows only: a device absent there is
at 0 there. -/
theorem dominates_iff : v.dominates w = true ↔ w ≤ v := by
  rw [dominates, List.all_eq_true, le_def]
  constructor
  · intro h d
    cases hd : w.entries[d]? with
    | none => simp [get, hd]
    | some s =>
      have := of_decide_eq_true (h (d, s) (Table.mem_toList.mpr hd))
      simpa [get, hd] using this
  · rintro h ⟨d, s⟩ hr
    have hs : w.get d = s := by rw [get, Table.mem_toList.mp hr]; rfl
    simpa [← hs] using h d

instance : DecidableLE VersionVector := fun _ _ => decidable_of_iff _ dominates_iff

instance : DecidableLT VersionVector := fun _ _ =>
  decidable_of_iff _ (lt_iff_le_not_ge).symm

theorem dominates_eq_decide (v w : VersionVector) : v.dominates w = decide (w ≤ v) := by
  rw [Bool.eq_iff_iff, dominates_iff, decide_eq_true_iff]

theorem compare_eq (v w : VersionVector) : v.compare w =
    if w ≤ v then (if v ≤ w then .equal else .after)
    else (if v ≤ w then .before else .concurrent) := by
  rw [compare, dominates_eq_decide, dominates_eq_decide]
  by_cases h : w ≤ v <;> by_cases k : v ≤ w <;> simp [h, k]

theorem compare_eq_equal : v.compare w = .equal ↔ v ≤ w ∧ w ≤ v := by
  rw [compare_eq]; split_ifs <;> simp_all

theorem le_advanced (v : VersionVector) (d : DeviceId) (s : ℕ) : v ≤ v.advanced d s := by
  intro e
  rw [get_advanced]
  split_ifs with h
  · subst h; exact le_max_left _ _
  · exact le_rfl

/-- A write at a sequence number above everything known of its device is a
strict successor of every version below its base. -/
theorem lt_advanced {u v : VersionVector} {d : DeviceId} {s : ℕ} (h : u ≤ v) (hs : v.get d < s) :
    u < v.advanced d s := by
  refine lt_of_le_of_lt h (lt_iff_le_not_ge.mpr ⟨le_advanced v d s, fun hle => ?_⟩)
  have := hle d
  rw [get_advanced_self hs.le] at this
  omega

theorem get_merge (v w : VersionVector) (d : DeviceId) :
    (v.merge w).get d = max (v.get d) (w.get d) := by
  have key : ∀ (rows : List (DeviceId × ℕ)) (acc : VersionVector),
      (∀ r ∈ rows, r.2 ≤ w.get r.1) →
      (rows.foldl (fun acc r => acc.observe r.1 r.2) acc).get d ≤ max (acc.get d) (w.get d) ∧
      acc.get d ≤ (rows.foldl (fun acc r => acc.observe r.1 r.2) acc).get d ∧
      ∀ s, (d, s) ∈ rows → s ≤ (rows.foldl (fun acc r => acc.observe r.1 r.2) acc).get d := by
    intro rows
    induction rows with
    | nil => intro acc _; simp
    | cons r rows ih =>
      intro acc hr
      obtain ⟨h1, h2, h3⟩ := ih (acc.observe r.1 r.2) fun x hx => hr x (List.mem_cons_of_mem _ hx)
      have hle := hr r List.mem_cons_self
      rw [get_observe] at h1 h2
      simp only [List.foldl_cons]
      refine ⟨?_, ?_, ?_⟩
      · split_ifs at h1 with hd
        · subst hd; omega
        · exact h1
      · split_ifs at h2 with hd
        · subst hd; omega
        · exact h2
      · intro s hs
        rcases List.mem_cons.mp hs with rfl | hs
        · simp only [if_true] at h2
          exact (le_max_right _ _).trans h2
        · exact h3 s hs
  have hrows : ∀ r ∈ w.entries.toList, r.2 ≤ w.get r.1 := fun r hr => by
    rw [get, Table.mem_toList.mp hr]; exact le_rfl
  obtain ⟨h1, h2, h3⟩ := key w.entries.toList v hrows
  refine le_antisymm h1 (max_le h2 ?_)
  cases hd : w.entries[d]? with
  | none => simp [get, hd]
  | some s =>
    have := h3 s (Table.mem_toList.mpr hd)
    simpa [get, hd, merge] using this

theorem le_merge_left (v w : VersionVector) : v ≤ v.merge w := fun d => by
  rw [get_merge]; exact le_max_left _ _

end VersionVector

end Itsanas
